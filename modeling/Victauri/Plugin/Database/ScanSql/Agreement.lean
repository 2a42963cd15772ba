import Victauri.Plugin.Database.ScanSql.Lockstep

/-!
# Token by token

What the scanner writes for one token, sort by sort of the tokens.
-/

namespace Victauri.Plugin.Database

open Victauri.Library.Sqlite

/-! ## Blank tokens -/

/-- White space or a semicolon, in the masked text. -/
def Written.isBlank : Written → Bool
  | kept p => isWhitespace p.char || p.char == ';'
  | hidden _ => false
  | space => true
  | newline => true

/-- White space, a comment or a semicolon; `str::trim` counts Unicode's white space, which is a
word for SQLite. -/
def isIdle (t : Token) : Bool :=
  match t.kind with
  | .space => true
  | .comment => true
  | .semi => true
  | .word => t.text.all fun p => isWhitespace p.char
  | _ => false

/-- The first of the two operators of a `/*` that ends the text. -/
def opensAtEnd (t : Token) : Bool :=
  t.text.map Placed.char == ['/'] && t.rest.map Placed.char == ['*']

/-- What the scanner writes for a token.  A comment and a blob may run on into the next token: what
the scanner, started there, would write first is `glued`. -/
structure Step (ps : List Placed) (t : Token) (written glued ahead : List Written) : Prop where
  scan_eq : scan false ps = written ++ ahead
  rest_eq : scan false t.rest = glued ++ ahead
  marks_eq : marks written = tokenMarks t
  glued_eq : marks glued = []
  not_semi : t.kind ≠ .semi → ∀ p ∈ tokenMarks t, p.char ≠ ';'
  semi : t.kind = .semi → ∃ p : Placed, written = [.kept p] ∧ p.char = ';' ∧ glued = []
  blank_of_idle : isIdle t = true → written.all Written.isBlank = true
  idle_of_blank : written.all Written.isBlank = true →
    isIdle t = true ∧ glued.all Written.isBlank = true ∨ opensAtEnd t = true

def Reads (ps : List Placed) (t : Token) : Prop :=
  ∃ written glued ahead, Step ps t written glued ahead

/-- The kinds of the tokens that are no space, comment or mark. -/
def isSolid : Kind → Bool
  | .space => false
  | .comment => false
  | .semi => false
  | .lp => false
  | .rp => false
  | _ => true

/-- The characters that solid tokens but words and parameters start with. -/
def isSolidHead (c : Char) : Bool := !isWhitespace c && !isMark c && !isSigil c

theorem tokenMarks_of_solid {t : Token} (hkind : isSolid t.kind = true) {p : Placed}
    {xs : List Placed} (htext : t.text = p :: xs) (hsigil : isSigil p.char = false) :
    tokenMarks t = [] := by
  rw [tokenMarks, htext, List.head?_cons, Option.any_some, hsigil]
  cases hk : t.kind with
  | semi | lp | rp =>
      rw [hk] at hkind
      cases hkind
  | _ => rfl

theorem isIdle_of_solid {t : Token} (hkind : isSolid t.kind = true) {p : Placed}
    {xs : List Placed} (htext : t.text = p :: xs) (hblank : isWhitespace p.char = false) :
    isIdle t = false := by
  rw [isIdle, htext, List.all_cons, hblank]
  cases hk : t.kind with
  | space | comment | semi =>
      rw [hk] at hkind
      cases hkind
  | _ => rfl

theorem ne_semi_of_solid {t : Token} (hkind : isSolid t.kind = true) : t.kind ≠ .semi := by
  intro hk
  rw [hk] at hkind
  cases hkind

/-- A solid token whose first character is kept. -/
theorem Step.solid {ps : List Placed} {t : Token} {p : Placed} {xs : List Placed}
    {written glued ahead : List Written}
    (hkind : isSolid t.kind = true) (htext : t.text = p :: xs)
    (hhead : isSolidHead p.char = true)
    (hscan : scan false ps = .kept p :: written ++ ahead)
    (hrest : scan false t.rest = glued ++ ahead)
    (hmarks : marks written = []) (hglued : marks glued = []) :
    Step ps t (.kept p :: written) glued ahead := by
  simp only [isSolidHead, Bool.and_eq_true, Bool.not_eq_true'] at hhead
  obtain ⟨⟨hblank, hmark⟩, hsigil⟩ := hhead
  have htokens : tokenMarks t = [] := tokenMarks_of_solid hkind htext hsigil
  have hidle : isIdle t = false := isIdle_of_solid hkind htext hblank
  have hkept : (Written.kept p).isBlank = false := by
    simp only [isMark, Bool.or_eq_false_iff] at hmark
    rw [Written.isBlank, hblank, hmark.1.1]
    rfl
  exact {
    scan_eq := hscan
    rest_eq := hrest
    marks_eq := by
      rw [htokens, marks, List.filterMap_cons, Written.mark, hmark]
      exact hmarks
    glued_eq := hglued
    not_semi := by
      rw [htokens]
      exact fun _ _ hp => absurd hp List.not_mem_nil
    semi := fun hsemi => absurd hsemi (ne_semi_of_solid hkind)
    blank_of_idle := by
      rw [hidle]
      exact fun h => absurd h Bool.false_ne_true
    idle_of_blank := by
      rw [List.all_cons, hkept]
      exact fun h => absurd h Bool.false_ne_true }

/-! ## Characters -/

theorem isWhitespace_cases {c : Char} (h : isWhitespace c = true) :
    isSpace c = true ∨ 0x80 ≤ c.toNat := by
  by_cases hascii : 0x80 ≤ c.toNat
  · exact .inr hascii
  · left
    rw [← Char.ofNat_toNat c] at h ⊢
    generalize c.toNat = n at h hascii ⊢
    have hall : ∀ n < 0x80, isWhitespace (Char.ofNat n) = true → isSpace (Char.ofNat n) = true := by
      decide
    exact hall n (Nat.lt_of_not_le hascii) h

theorem isDigit_toNat {c : Char} (h : isDigit c = true) : c.toNat < 0x80 := by
  rw [isDigit, Bool.and_eq_true, decide_eq_true_eq, decide_eq_true_eq] at h
  have hle : c.toNat ≤ '9'.toNat := UInt32.le_iff_toNat_le.mp h.2
  exact Nat.lt_of_le_of_lt hle (by decide)

theorem isSolidHead_of_isDigit {c : Char} (h : isDigit c = true) : isSolidHead c = true := by
  have hid := isDigit_idChar h
  simp only [isSolidHead, Bool.and_eq_true, Bool.not_eq_true']
  refine ⟨⟨?_, isMark_of_isIdChar hid.1⟩, ?_⟩
  · rw [Bool.eq_false_iff]
    intro hwhite
    rcases isWhitespace_cases hwhite with hspace | hascii
    · rw [(isSpace_cases hspace).2.1] at hid
      exact Bool.false_ne_true hid.1
    · exact absurd (isDigit_toNat h) (Nat.not_lt.mpr hascii)
  · rw [Bool.eq_false_iff]
    intro hsigil
    rw [eq_dollar_of_isSigil hid.1 hsigil] at h
    exact absurd h (by decide)

/-- A character of no class starts no token that the scanner reads in a way of its own. -/
theorem illegal_cases {c : Char} (h : classify c = .illegal) :
    isPlain c = true ∧ isIdChar c = false ∧ isSolidHead c = true := by
  have hnone := classify_illegal h
  simp only [charClasses, List.forall_mem_cons, CharClass.has, Bool.or_eq_false_iff,
    Bool.and_eq_false_iff, Bool.not_eq_false', bne_eq_false_iff_eq] at hnone
  obtain ⟨hspace, hminus, hslash, hsemi, hlp, hrp, ⟨⟨hsingle, hdouble⟩, hback⟩, hbracket, hdigit,
    -, -, ⟨⟨⟨hdollar, hcolon⟩, hat⟩, hhash⟩, ⟨hx, hX⟩, hbom, hword, -⟩ := hnone
  have hid : isIdChar c = false := by
    rcases hword with ((((hid | hand) | hand) | hand) | hand) | hand
    · exact hid
    · rw [hdigit] at hand
      exact absurd hand Bool.false_ne_true
    · rw [hand] at hdollar
      exact absurd hdollar (by decide)
    · rw [hand] at hbom
      exact absurd hbom (by decide)
    · rw [hand] at hx
      exact absurd hx (by decide)
    · rw [hand] at hX
      exact absurd hX (by decide)
  have hsigil : isSigil c = false := by
    rw [isSigil, hdollar, hcolon, hat, hhash]
    rfl
  have hwhite : isWhitespace c = false := by
    rw [Bool.eq_false_iff]
    intro hwhite
    rcases isWhitespace_cases hwhite with hspace' | hascii
    · rw [hspace] at hspace'
      exact Bool.false_ne_true hspace'
    · simp only [isIdChar, Bool.or_eq_false_iff, decide_eq_false_iff_not] at hid
      exact hid.2 hascii
  refine ⟨?_, hid, ?_⟩
  · rw [isPlain, hsigil, isQuote, hsingle, hdouble, hback, hbracket, bne, bne, bne, hminus, hslash,
      show (c == '\ufeff') = false from hbom]
    rfl
  · rw [isSolidHead, hwhite, isMark, hsemi, hlp, hrp, hsigil]
    rfl

/-! ## Operators -/

theorem scan_take {n : Nat} {ps : List Placed}
    (h : ∀ q ∈ ps.take n, isPlain q.char = true ∧ isIdChar q.char = false) :
    scan false ps = (ps.take n).map .kept ++ scan false (ps.drop n) := by
  induction n generalizing ps with
  | zero => rfl
  | succ n ih =>
      cases ps with
      | nil => rfl
      | cons q ps =>
          rw [List.take_succ_cons, List.forall_mem_cons] at h
          rw [scan_plain h.1.1, h.1.2, ih h.2]
          rfl

/-- A solid token of a first character and plain ones. -/
theorem Step.taken {kind : Kind} {n : Nat} {p : Placed} {ps : List Placed}
    (hkind : isSolid kind = true) (hhead : isSolidHead p.char = true)
    (hscan : scan false (p :: ps) = .kept p :: scan false ps)
    (htake : ∀ q ∈ ps.take n, isPlain q.char = true ∧ isIdChar q.char = false ∧
      isMark q.char = false) :
    Step (p :: ps) (cutTake kind n p ps) (.kept p :: (ps.take n).map .kept) []
      (scan false (ps.drop n)) := by
  have htaken := scan_take fun q hq => ⟨(htake q hq).1, (htake q hq).2.1⟩
  refine .solid hkind rfl hhead ?_ rfl (marks_kept fun q hq => (htake q hq).2.2) rfl
  rw [hscan, htaken]
  rfl

theorem Step.single {kind : Kind} {p : Placed} (hkind : isSolid kind = true)
    (hplain : isPlain p.char = true) (hid : isIdChar p.char = false)
    (hhead : isSolidHead p.char = true) (ps : List Placed) :
    Step (p :: ps) (cutTake kind 0 p ps) [.kept p] [] (scan false ps) := by
  refine .taken hkind hhead ?_ fun q hq => absurd hq List.not_mem_nil
  rw [scan_plain hplain, hid]

theorem next_cases {ps : List Placed} {c : Char} (h : next ps c = true) :
    ∃ q qs, ps = q :: qs ∧ q.char = c := by
  cases ps with
  | nil => cases h
  | cons q qs => exact ⟨q, qs, rfl, beq_iff_eq.mp h⟩

/-- The characters that an operator goes on with. -/
theorem operator_cases {c : Char} (h : c = '=' ∨ c = '<' ∨ c = '>' ∨ c = '|') :
    isPlain c = true ∧ isIdChar c = false ∧ isMark c = false := by
  rcases h with rfl | rfl | rfl | rfl <;> decide

theorem isOperatorPair_cases {c : Char} {ps : List Placed} (h : isOperatorPair c ps = true) :
    ∃ q qs, ps = q :: qs ∧ (q.char = '=' ∨ q.char = '<' ∨ q.char = '>' ∨ q.char = '|') := by
  cases ps with
  | nil =>
      simp only [isOperatorPair, next, List.head?_nil, Option.any_none, Bool.and_false,
        Bool.or_false, Bool.false_eq_true] at h
  | cons q qs =>
      refine ⟨q, qs, rfl, ?_⟩
      simp only [isOperatorPair, next, List.head?_cons, Option.any_some, Bool.or_eq_true,
        Bool.and_eq_true, beq_iff_eq] at h
      tauto

theorem Reads.comparison {p : Placed} (h : CharClass.comparison.has p.char = true)
    (ps : List Placed) :
    Reads (p :: ps)
      (if isOperatorPair p.char ps then cutTake .operator 1 p ps
        else cutTake (if p.char = '!' then .illegal else .operator) 0 p ps) := by
  have hchar : isPlain p.char = true ∧ isIdChar p.char = false ∧ isSolidHead p.char = true := by
    simp only [CharClass.has, Bool.or_eq_true, beq_iff_eq] at h
    rcases h with (((h | h) | h) | h) | h <;> rw [h] <;> decide
  obtain ⟨hplain, hid, hhead⟩ := hchar
  split_ifs with hpair hbang
  · obtain ⟨q, qs, rfl, hq⟩ := isOperatorPair_cases hpair
    refine ⟨_, _, _, .taken rfl hhead ?_ fun r hr => ?_⟩
    · rw [scan_plain hplain, hid]
    · rw [List.mem_singleton.mp hr]
      exact operator_cases hq
  · exact ⟨_, _, _, .single rfl hplain hid hhead ps⟩
  · exact ⟨_, _, _, .single rfl hplain hid hhead ps⟩

/-! ## Comments -/

/-- White space or a comment, which leave white space only. -/
theorem Step.idle {ps : List Placed} {t : Token} {p : Placed} {xs : List Placed}
    {written glued ahead : List Written}
    (hkind : t.kind = .space ∨ t.kind = .comment) (htext : t.text = p :: xs)
    (hsigil : isSigil p.char = false) (hscan : scan false ps = written ++ ahead)
    (hrest : scan false t.rest = glued ++ ahead)
    (hwritten : ∀ w ∈ written, w.isBlank = true ∧ w.mark = none)
    (hglued : ∀ w ∈ glued, w.isBlank = true ∧ w.mark = none) : Step ps t written glued ahead := by
  have htokens : tokenMarks t = [] := by
    rw [tokenMarks, htext, List.head?_cons, Option.any_some, hsigil]
    rcases hkind with hkind | hkind <;> rw [hkind] <;> rfl
  have hidle : isIdle t = true := by
    rcases hkind with hkind | hkind <;> rw [isIdle, hkind]
  exact {
    scan_eq := hscan
    rest_eq := hrest
    marks_eq := by
      rw [htokens, marks, List.filterMap_eq_nil_iff]
      exact fun w hw => (hwritten w hw).2
    glued_eq := by
      rw [marks, List.filterMap_eq_nil_iff]
      exact fun w hw => (hglued w hw).2
    not_semi := by
      rw [htokens]
      exact fun _ _ hp => absurd hp List.not_mem_nil
    semi := by
      rcases hkind with hkind | hkind <;> rw [hkind] <;> rintro ⟨⟩
    blank_of_idle := fun _ => List.all_eq_true.mpr fun w hw => (hwritten w hw).1
    idle_of_blank := fun _ => .inl ⟨hidle, List.all_eq_true.mpr fun w hw => (hglued w hw).1⟩ }

theorem scan_line {c d : Placed} (hc : c.char = '-') (hd : d.char = '-') (ps : List Placed) :
    scan false (c :: d :: ps) = .space :: .newline :: scan false (scanLine (d :: ps)) := by
  have hnext : next (d :: ps) '-' = true := beq_iff_eq.mpr hd
  rw [scan, hc, if_neg (fun hand => absurd hand.1 (by decide)),
    if_neg (fun hand => absurd hand.1 (by decide)), if_pos ⟨rfl, hnext⟩]

/-- Where the token ends, the line break is still ahead. -/
theorem scanLine_eq (ps : List Placed) :
    afterRun (· != '\n') ps = [] ∧ scanLine ps = [] ∨
      ∃ p, p.char = '\n' ∧ afterRun (· != '\n') ps = p :: scanLine ps := by
  induction ps with
  | nil => exact .inl ⟨rfl, rfl⟩
  | cons p ps ih =>
      by_cases hp : p.char = '\n'
      · have hneg : ¬(p.char != '\n') = true := by
          rw [hp]
          decide
        rw [afterRun_cons_of_neg hneg, scanLine, if_pos hp]
        exact .inr ⟨p, hp, rfl⟩
      · have hpos : (p.char != '\n') = true := bne_iff_ne.mpr hp
        rw [afterRun_cons_of_pos hpos, scanLine, if_neg hp]
        exact ih

theorem Reads.minus {p : Placed} (hp : p.char = '-') (ps : List Placed) :
    Reads (p :: ps) (cutMinus p ps) := by
  have hhead : isSolidHead p.char = true := by
    rw [hp]
    decide
  have hsigil : isSigil p.char = false := by
    rw [hp]
    decide
  rw [cutMinus]
  by_cases hline : next ps '-' = true
  · rw [if_pos hline]
    obtain ⟨d, qs, rfl, hd⟩ := next_cases hline
    have hspaces : ∀ w ∈ [Written.space, .newline], w.isBlank = true ∧ w.mark = none := by decide
    rcases scanLine_eq (d :: qs) with ⟨hafter, hrest⟩ | ⟨q, hq, hafter⟩
    · refine ⟨[.space, .newline], [], [], .idle (.inr rfl) rfl hsigil ?_ ?_ hspaces ?_⟩
      · rw [scan_line hp hd, hrest, scan]
        rfl
      · change scan false (afterRun (· != '\n') (d :: qs)) = []
        rw [hafter, scan]
      · exact fun w hw => absurd hw List.not_mem_nil
    · refine ⟨[.space, .newline], [.kept q], scan false (scanLine (d :: qs)),
        .idle (.inr rfl) rfl hsigil ?_ ?_ hspaces ?_⟩
      · exact scan_line hp hd qs
      · change scan false (afterRun (· != '\n') (d :: qs)) = _
        have hplain : isPlain q.char = true := by
          rw [hq]
          decide
        rw [hafter, scan_plain hplain, hq]
        rfl
      · intro w hw
        rw [List.mem_singleton.mp hw, Written.isBlank, Written.mark, hq]
        exact ⟨rfl, rfl⟩
  · rw [if_neg hline]
    have hscan := scan_minus hp (Bool.eq_false_iff.mpr hline) false
    split_ifs with harrow hlong
    · obtain ⟨q, qs, rfl, hq⟩ := next_cases harrow
      obtain ⟨r, rs, hqs, hr⟩ := next_cases hlong
      cases hqs
      refine ⟨_, _, _, .taken rfl hhead hscan fun x hx => ?_⟩
      rcases List.mem_cons.mp hx with rfl | hx
      · exact operator_cases (.inr (.inr (.inl hq)))
      · rw [List.mem_singleton.mp hx]
        exact operator_cases (.inr (.inr (.inl hr)))
    · obtain ⟨q, qs, rfl, hq⟩ := next_cases harrow
      refine ⟨_, _, _, .taken rfl hhead hscan fun x hx => ?_⟩
      rw [List.mem_singleton.mp hx]
      exact operator_cases (.inr (.inr (.inl hq)))
    · exact ⟨_, _, _, .taken rfl hhead hscan fun x hx => absurd hx List.not_mem_nil⟩

theorem scanBlock_eq (prev : Char) (ps : List Placed) : scanBlock prev ps = (cutBlock prev ps).2 := by
  induction ps generalizing prev with
  | nil => rfl
  | cons p ps ih =>
      rw [scanBlock, cutBlock]
      split_ifs
      · rfl
      · exact ih p.char

theorem scan_block {c d : Placed} (hc : c.char = '/') (hd : d.char = '*') (ps : List Placed) :
    scan false (c :: d :: ps) = .space :: scan false (scanBlock '\x00' ps) := by
  have hnext : next (d :: ps) '*' = true := beq_iff_eq.mpr hd
  rw [scan, hc, if_neg (fun hand => absurd hand.1 (by decide)),
    if_neg (fun hand => absurd hand.1 (by decide)), if_neg (fun hand => absurd hand.1 (by decide)),
    if_pos ⟨rfl, hnext⟩, List.tail_cons]

/-- A slash that opens no comment for the scanner. -/
theorem scan_slash {c : Placed} (hc : c.char = '/') {ps : List Placed} (h : next ps '*' = false) :
    scan false (c :: ps) = .kept c :: scan false ps := by
  have hid : isSqliteIdChar '/' = false := rfl
  rw [scan, hc, if_neg (fun hand => absurd hand.1 (by decide)),
    if_neg (fun hand => absurd hand.1 (by decide)), if_neg (fun hand => absurd hand.1 (by decide)),
    h, if_neg (fun hand => Bool.false_ne_true hand.2), if_neg (by decide), hid]

theorem Reads.slash {p : Placed} (hp : p.char = '/') (ps : List Placed) :
    Reads (p :: ps) (cutSlash p ps) := by
  have hhead : isSolidHead p.char = true := by
    rw [hp]
    decide
  have hsigil : isSigil p.char = false := by
    rw [hp]
    decide
  have hsingle (ps : List Placed) (h : next ps '*' = false) :
      Reads (p :: ps) (cutTake .operator 0 p ps) :=
    ⟨_, _, _, .taken rfl hhead (scan_slash hp h) fun x hx => absurd hx List.not_mem_nil⟩
  rcases ps with - | ⟨star, - | ⟨first, rest⟩⟩
  · exact hsingle [] rfl
  · -- `/*` at the end of the text: a comment for the scanner, two operators for SQLite
    by_cases hstar : star.char = '*'
    · have htokens : tokenMarks (cutSlash p [star]) = [] :=
        tokenMarks_of_solid rfl rfl hsigil
      have hstarred : scan false [star] = [.kept star] := by
        have hplain : isPlain star.char = true := by
          rw [hstar]
          decide
        rw [scan_plain hplain, scan]
      refine ⟨[.space], [.kept star], [], ?_⟩
      exact {
        scan_eq := by
          rw [scan_block hp hstar, scanBlock, scan]
          rfl
        rest_eq := hstarred
        marks_eq := htokens.symm
        glued_eq := by
          rw [marks, List.filterMap_cons, Written.mark, hstar]
          rfl
        not_semi := by
          rw [htokens]
          exact fun _ _ hp => absurd hp List.not_mem_nil
        semi := by rintro ⟨⟩
        blank_of_idle := fun _ => rfl
        idle_of_blank := fun _ => .inr (by
          rw [opensAtEnd, Bool.and_eq_true, beq_iff_eq, beq_iff_eq]
          exact ⟨congrArg ([·]) hp, congrArg ([·]) hstar⟩) }
    · exact hsingle [star] (beq_eq_false_iff_ne.mpr hstar)
  · rw [cutSlash]
    split_ifs with hstar
    · refine ⟨[.space], [], scan false (cutBlock first.char rest).2,
        .idle (.inr rfl) rfl hsigil ?_ rfl (by decide) fun w hw => absurd hw List.not_mem_nil⟩
      have hnull : ¬('\x00' = '*' ∧ first.char = '/') := fun hand => absurd hand.1 (by decide)
      rw [scan_block hp hstar, scanBlock, if_neg hnull, scanBlock_eq]
      rfl
    · exact hsingle _ (beq_eq_false_iff_ne.mpr hstar)

/-! ## Quoted spans -/

theorem scan_quoted {c : Placed} (h : isQuote c.char = true) (w : Bool) (ps : List Placed) :
    scan w (c :: ps) = .kept c :: ((scanQuoted (closeOf c.char) (c.char != '[') ps).1 ++
      scan false (scanQuoted (closeOf c.char) (c.char != '[') ps).2) := by
  have hchar : c.char ≠ '\ufeff' ∧ isSigil c.char = false ∧ c.char ≠ '-' ∧ c.char ≠ '/' := by
    simp only [isQuote, Bool.or_eq_true, beq_iff_eq] at h
    rcases h with ((h | h) | h) | h <;> rw [h] <;> decide
  obtain ⟨hbom, hsigil, hminus, hslash⟩ := hchar
  rw [scan, if_neg (fun hand => hbom hand.1), if_neg (fun hand => ?_),
    if_neg (fun hand => hminus hand.1), if_neg (fun hand => hslash hand.1), if_pos h]
  rw [hsigil] at hand
  exact Bool.false_ne_true hand.1

theorem scanQuoted_of_ne {close : Char} {n : Placed} (h : n.char ≠ close) (doubled : Bool)
    (ps : List Placed) : scanQuoted close doubled (n :: ps) =
      (.hidden n :: (scanQuoted close doubled ps).1, (scanQuoted close doubled ps).2) := by
  rw [scanQuoted.eq_def]
  exact if_neg h

theorem scanQuoted_escape {close : Char} {n m : Placed} (hn : n.char = close) (hm : m.char = close)
    (qs : List Placed) : scanQuoted close true (n :: m :: qs) =
      (.hidden n :: .hidden m :: (scanQuoted close true qs).1, (scanQuoted close true qs).2) := by
  rw [scanQuoted.eq_def]
  dsimp only
  rw [if_pos hn, if_pos ⟨rfl, hm⟩]

theorem scanQuoted_close {close : Char} {n : Placed} (hn : n.char = close) {doubled : Bool}
    {ps : List Placed} (h : doubled = true → next ps close = false) :
    scanQuoted close doubled (n :: ps) = ([.kept n], ps) := by
  rw [scanQuoted.eq_def]
  dsimp only
  rw [if_pos hn]
  cases ps with
  | nil => rfl
  | cons m qs =>
      have hneg : ¬(doubled = true ∧ m.char = close) :=
        fun hand => beq_eq_false_iff_ne.mp (h hand.1) hand.2
      exact if_neg hneg

theorem scanQuoted_marks {close : Char} (hclose : isMark close = false) (doubled : Bool)
    (ps : List Placed) : marks (scanQuoted close doubled ps).1 = [] := by
  fun_induction scanQuoted close doubled ps with
  | case1 => rfl
  | case2 n hn m qs hm written rest hquoted ih =>
      rw [hquoted] at ih
      exact ih
  | case3 n hn m qs hm =>
      rw [marks, List.filterMap_cons, Written.mark, hn, hclose]
      rfl
  | case4 n hn =>
      rw [marks, List.filterMap_cons, Written.mark, hn, hclose]
      rfl
  | case5 n ps hn written rest hquoted ih =>
      rw [hquoted] at ih
      exact ih

/-- With doubled quotes the scanner comes to the end of SQLite's token. -/
theorem scanQuoted_doubled (close : Char) (ps : List Placed) :
    (scanQuoted close true ps).2 = (cutQuoted close ps).2.2 := by
  fun_induction cutQuoted close ps with
  | case1 => rfl
  | case2 p hp q qs hq closed text rest hcut ih =>
      rw [hcut] at ih
      rw [scanQuoted_escape hp hq]
      exact ih
  | case3 p hp q qs hq =>
      have hnext : next (q :: qs) close = false := beq_eq_false_iff_ne.mpr hq
      rw [scanQuoted_close hp fun _ => hnext]
  | case4 p hp => rw [scanQuoted_close hp fun _ => rfl]
  | case5 p ps hp closed text rest hcut ih =>
      rw [hcut] at ih
      rw [scanQuoted_of_ne hp]
      exact ih

theorem Reads.quote {p : Placed} (h : CharClass.quote.has p.char = true) (ps : List Placed) :
    Reads (p :: ps) (cutQuote p ps) := by
  have hchar : isQuote p.char = true ∧ closeOf p.char = p.char ∧ (p.char != '[') = true ∧
      isMark p.char = false ∧ isSolidHead p.char = true := by
    simp only [CharClass.has, Bool.or_eq_true, beq_iff_eq] at h
    rcases h with (h | h) | h <;> rw [h] <;> decide
  obtain ⟨hquote, hclose, hdoubled, hmark, hhead⟩ := hchar
  have hscan := scan_quoted hquote false ps
  rw [hclose, hdoubled, scanQuoted_doubled] at hscan
  have hkind : isSolid (cutQuote p ps).kind = true := by
    rw [cutQuote]
    dsimp only
    split_ifs <;> rfl
  exact ⟨_, [], _, .solid hkind rfl hhead hscan rfl (scanQuoted_marks hmark true ps) rfl⟩

theorem cutClosed_of_eq {close : Char} {p : Placed} (hp : p.char = close) (ps : List Placed) :
    (cutClosed close (p :: ps)).2.2 = ps := by
  have hneg : ¬(p.char != close) = true := by
    rw [hp, bne_self_eq_false]
    exact Bool.false_ne_true
  rw [cutClosed, afterRun_cons_of_neg hneg]

theorem cutClosed_of_ne {close : Char} {p : Placed} (hp : p.char ≠ close) (ps : List Placed) :
    (cutClosed close (p :: ps)).2.2 = (cutClosed close ps).2.2 := by
  have hpos : (p.char != close) = true := bne_iff_ne.mpr hp
  rw [cutClosed, cutClosed, afterRun_cons_of_pos hpos]
  cases afterRun (· != close) ps with
  | nil => rfl
  | cons q qs => rfl

/-- Without, it comes to the first closing mark. -/
theorem scanQuoted_single (close : Char) (ps : List Placed) :
    (scanQuoted close false ps).2 = (cutClosed close ps).2.2 := by
  induction ps with
  | nil => rfl
  | cons p ps ih =>
      by_cases hp : p.char = close
      · rw [scanQuoted_close hp fun h => absurd h Bool.false_ne_true, cutClosed_of_eq hp]
      · rw [scanQuoted_of_ne hp, cutClosed_of_ne hp]
        exact ih

/-- With doubled quotes it goes on where a token without them ends and a string follows. -/
theorem scanQuoted_glued {p : Placed} (hp : p.char = '\'') (ps : List Placed) :
    ∃ written glued ahead, marks written = [] ∧ marks glued = [] ∧
      scan true (p :: ps) = .kept p :: written ++ ahead ∧
        scan false (cutClosed '\'' ps).2.2 = glued ++ ahead := by
  have hspan (w : Bool) {q : Placed} (hq : q.char = '\'') (qs : List Placed) :
      scan w (q :: qs) = .kept q :: ((scanQuoted '\'' true qs).1 ++
        scan false (scanQuoted '\'' true qs).2) := by
    have h := scan_quoted (c := q) (by rw [hq]; decide) w qs
    rw [hq] at h
    exact h
  have hmarks := scanQuoted_marks (show isMark '\'' = false from rfl) true
  rw [hspan true hp]
  induction ps with
  | nil => exact ⟨[], [], scan false [], rfl, rfl, rfl, rfl⟩
  | cons q ps ih =>
      by_cases hq : q.char = '\''
      · rw [cutClosed_of_eq hq]
        by_cases hnext : next ps '\'' = true
        · obtain ⟨r, rs, rfl, hr⟩ := next_cases hnext
          rw [scanQuoted_escape hq hr, hspan false hr]
          refine ⟨.hidden q :: .hidden r :: (scanQuoted '\'' true rs).1,
            .kept r :: (scanQuoted '\'' true rs).1, scan false (scanQuoted '\'' true rs).2,
            hmarks rs, ?_, rfl, rfl⟩
          rw [marks, List.filterMap_cons, Written.mark, hr]
          exact hmarks rs
        · rw [scanQuoted_close hq fun _ => Bool.eq_false_iff.mpr hnext]
          refine ⟨[.kept q], [], scan false ps, ?_, rfl, rfl, rfl⟩
          rw [marks, List.filterMap_cons, Written.mark, hq]
          rfl
      · obtain ⟨written, glued, ahead, hwritten, hglued, hscan, hrest⟩ := ih
        rw [scanQuoted_of_ne hq, cutClosed_of_ne hq]
        refine ⟨.hidden q :: written, glued, ahead, hwritten, hglued, ?_, hrest⟩
        rw [List.cons_append, List.cons_inj_right] at hscan
        rw [List.cons_append, hscan]
        rfl

theorem Reads.bracket {p : Placed} (hp : p.char = '[') (ps : List Placed) :
    Reads (p :: ps) (cutBracket p ps) := by
  have hscan := scan_quoted (c := p) (by rw [hp]; decide) false ps
  rw [hp, show closeOf '[' = ']' from rfl, show ('[' != '[') = false from rfl,
    scanQuoted_single] at hscan
  have hkind : isSolid (cutBracket p ps).kind = true := by
    rw [cutBracket]
    dsimp only
    split_ifs <;> rfl
  have hhead : isSolidHead p.char = true := by
    rw [hp]
    decide
  exact ⟨_, [], _, .solid hkind rfl hhead hscan rfl (scanQuoted_marks (by decide) false ps) rfl⟩

/-! ## Words and blobs -/

theorem Reads.word {p : Placed} (h : isIdChar p.char = true)
    (hglues : glues p.char = false) (ps : List Placed) :
    Reads (p :: ps) (cutRun .word isIdChar p ps) := by
  have hids : ∀ q ∈ p :: run isIdChar ps, isIdChar q.char = true := by
    rw [List.forall_mem_cons]
    exact ⟨h, fun q hq => mem_run hq⟩
  have hmarks : marks ((p :: run isIdChar ps).map .kept) = [] :=
    marks_kept fun q hq => isMark_of_isIdChar (hids q hq)
  have htokens : tokenMarks (cutRun .word isIdChar p ps) = [] := by
    refine tokenMarks_of_solid rfl rfl ?_
    rw [Bool.eq_false_iff]
    intro hsigil
    rw [eq_dollar_of_isSigil h hsigil] at hglues
    exact absurd hglues (by decide)
  have hblank : ((p :: run isIdChar ps).map Written.kept).all Written.isBlank =
      isIdle (cutRun .word isIdChar p ps) := by
    change _ = (p :: run isIdChar ps).all fun q => isWhitespace q.char
    rw [List.all_map, Bool.eq_iff_iff, List.all_eq_true, List.all_eq_true]
    refine forall₂_congr fun q hq => ?_
    have hsemi : (q.char == ';') = false := beq_eq_false_iff_ne.mpr (ne_of_isIdChar (hids q hq) rfl)
    rw [Function.comp_apply, Written.isBlank, hsemi, Bool.or_false]
  refine ⟨(p :: run isIdChar ps).map .kept, [], scan false (afterRun isIdChar ps), ?_⟩
  exact {
    scan_eq := by
      rw [scan_plain (isPlain_of_isIdChar h hglues), h, scan_word]
      rfl
    rest_eq := rfl
    marks_eq := hmarks.trans htokens.symm
    glued_eq := rfl
    not_semi := by
      rw [htokens]
      exact fun _ _ hp => absurd hp List.not_mem_nil
    semi := by rintro ⟨⟩
    blank_of_idle := fun hidle => hblank.trans hidle
    idle_of_blank := fun hall => .inl ⟨hblank.symm.trans hall, rfl⟩ }

theorem Reads.x {p : Placed} (h : CharClass.x.has p.char = true) (ps : List Placed) :
    Reads (p :: ps) (cutX p ps) := by
  have hchar : isIdChar p.char = true ∧ glues p.char = false ∧ isSolidHead p.char = true := by
    simp only [CharClass.has, Bool.or_eq_true, beq_iff_eq] at h
    rcases h with h | h <;> rw [h] <;> decide
  obtain ⟨hid, hglues, hhead⟩ := hchar
  rcases ps with - | ⟨quote, rest⟩
  · exact .word hid hglues []
  · rw [cutX]
    split_ifs with hquote
    · obtain ⟨written, glued, ahead, hwritten, hglued, hscan, hrest⟩ := scanQuoted_glued hquote rest
      have hkind : isSolid (cutBlob p quote rest).kind = true := by
        rw [cutBlob]
        dsimp only
        split_ifs <;> rfl
      refine ⟨.kept p :: .kept quote :: written, glued, ahead,
        .solid hkind rfl hhead ?_ hrest ?_ hglued⟩
      · rw [scan_plain (isPlain_of_isIdChar hid hglues), hid, hscan]
        rfl
      · rw [marks, List.filterMap_cons, Written.mark, hquote]
        exact hwritten
    · exact .word hid hglues _

/-! ## Numbers and numbered parameters -/

theorem Reads.number {p : Placed} (hfirst : isDigit p.char = true ∨ p.char = '.')
    {ps : List Placed} (hpoint : gluesAfterPoint (cutNumber (p :: ps)).text = false) :
    Reads (p :: ps) (cutNumber (p :: ps)) := by
  have htext := cutNumber_text_ne_nil hfirst ps
  have happend := cutNumber_append (p :: ps)
  obtain ⟨hscan, hmarks⟩ := scan_number hfirst hpoint
  have hkind : isSolid (cutNumber (p :: ps)).kind = true := by
    rw [cutNumber]
    dsimp only
    split_ifs <;> rfl
  have hhead : isSolidHead p.char = true := by
    rcases hfirst with hdigit | hdot
    · exact isSolidHead_of_isDigit hdigit
    · rw [hdot]
      decide
  cases hcut : (cutNumber (p :: ps)).text with
  | nil => exact absurd hcut htext
  | cons q xs =>
      rw [hcut, List.cons_append, List.cons.injEq] at happend
      obtain ⟨rfl, -⟩ := happend
      rw [hcut] at hscan hmarks
      have hxs : marks (xs.map .kept) = [] := by
        rw [List.map_cons, marks, List.filterMap_cons] at hmarks
        cases hmark : (Written.kept q).mark with
        | none =>
            rw [hmark] at hmarks
            exact hmarks
        | some r =>
            rw [hmark] at hmarks
            exact absurd hmarks (List.cons_ne_nil _ _)
      exact ⟨_, [], _, .solid hkind hcut hhead hscan rfl hxs rfl⟩

/-- `?` and digits, with no `$` or U+FEFF after them. -/
theorem Reads.question {p : Placed} (hp : p.char = '?') {ps : List Placed}
    (hglues : run isDigit ps = [] ∨
      (afterRun isDigit ps).head?.any (fun q => glues q.char) = false) :
    Reads (p :: ps) (cutRun .parameter isDigit p ps) := by
  have hchar : isPlain p.char = true ∧ isIdChar p.char = false ∧ isSolidHead p.char = true := by
    rw [hp]
    decide
  obtain ⟨hplain, hid, hhead⟩ := hchar
  have hids : ∀ q ∈ run isDigit ps, isIdChar q.char = true :=
    fun q hq => (isDigit_idChar (mem_run hq)).1
  have hscan : scan false ps = (run isDigit ps).map .kept ++ scan false (afterRun isDigit ps) := by
    have happend := run_append_afterRun isDigit ps
    cases hrun : run isDigit ps with
    | nil =>
        rw [hrun] at happend
        rw [List.nil_append] at happend
        rw [happend]
        rfl
    | cons q qs =>
        rw [hrun] at hids hglues happend
        have hq : isDigit q.char = true := mem_run (by rw [hrun]; exact List.mem_cons_self)
        have hsmooth : Smooth false (q :: qs) true := by
          refine .plain ⟨isPlain_of_isIdChar (isDigit_idChar hq).1 (isDigit_idChar hq).2,
            isMark_of_isIdChar (isDigit_idChar hq).1⟩ ?_
          rw [(isDigit_idChar hq).1]
          exact .word_list (List.forall_mem_cons.mp hids).2
        have hafter := hglues.resolve_left (List.cons_ne_nil q qs)
        rw [← scan_true hafter, ← hsmooth.scan, happend]
  refine ⟨_, [], scan false (afterRun isDigit ps), .solid rfl rfl hhead ?_ rfl
    (marks_kept fun q hq => isMark_of_isIdChar (hids q hq)) rfl⟩
  rw [scan_plain hplain, hid, hscan]
  rfl

/-! ## Named parameters -/

theorem scanName_eq (ps : List Placed) : scanName ps = cutName ps := by
  fun_induction cutName ps with
  | case1 => rfl
  | case2 p ps hp name rest hcut ih =>
      rw [scanName.eq_def]
      dsimp only
      rw [isSqliteIdChar_eq, if_pos hp, ih, hcut]
  | case3 p hp hcolon q qs hq name rest hcut ih =>
      rw [scanName.eq_def]
      dsimp only
      rw [isSqliteIdChar_eq, if_neg hp, if_pos hcolon, if_pos hq, ih, hcut]
  | case4 p hp hcolon q qs hq =>
      rw [scanName.eq_def]
      dsimp only
      rw [isSqliteIdChar_eq, if_neg hp, if_pos hcolon, if_neg hq]
  | case5 p hp hcolon =>
      rw [scanName.eq_def]
      dsimp only
      rw [isSqliteIdChar_eq, if_neg hp, if_pos hcolon]
  | case6 p ps hp hcolon =>
      rw [scanName.eq_def]
      dsimp only
      rw [isSqliteIdChar_eq, if_neg hp, if_neg hcolon]

theorem parameterNameFollows_eq (ps : List Placed) :
    parameterNameFollows ps = (cutName ps).1.any fun q => isIdChar q.char := by
  fun_induction cutName ps with
  | case1 => rfl
  | case2 p ps hp name rest hcut ih =>
      rw [parameterNameFollows.eq_def]
      dsimp only
      rw [isSqliteIdChar_eq, if_pos hp, List.any_cons, hp, Bool.true_or]
  | case3 p hp hcolon q qs hq name rest hcut ih =>
      rw [hcut] at ih
      rw [parameterNameFollows.eq_def]
      dsimp only
      rw [isSqliteIdChar_eq, if_neg hp, if_neg (not_not.mpr hcolon), if_pos hq, ih, List.any_cons, List.any_cons,
        Bool.eq_false_iff.mpr hp, hq]
      rfl
  | case4 p hp hcolon q qs hq =>
      rw [parameterNameFollows.eq_def]
      dsimp only
      rw [isSqliteIdChar_eq, if_neg hp, if_neg (not_not.mpr hcolon), if_neg hq]
      rfl
  | case5 p hp hcolon =>
      rw [parameterNameFollows.eq_def]
      dsimp only
      rw [isSqliteIdChar_eq, if_neg hp, if_neg (not_not.mpr hcolon)]
      rfl
  | case6 p ps hp hcolon =>
      rw [parameterNameFollows.eq_def]
      dsimp only
      rw [isSqliteIdChar_eq, if_neg hp, if_pos hcolon]
      rfl

theorem cutName_unmarked (ps : List Placed) : ∀ q ∈ (cutName ps).1, isMark q.char = false := by
  have hcolons {c : Char} (h : c = ':') : isMark c = false := by
    rw [h]
    rfl
  fun_induction cutName ps with
  | case1 => exact fun q hq => absurd hq List.not_mem_nil
  | case2 p ps hp name rest hcut ih =>
      rw [hcut] at ih
      exact List.forall_mem_cons.mpr ⟨isMark_of_isIdChar hp, ih⟩
  | case3 p hp hcolon q qs hq name rest hcut ih =>
      rw [hcut] at ih
      exact List.forall_mem_cons.mpr ⟨hcolons hcolon, List.forall_mem_cons.mpr ⟨hcolons hq, ih⟩⟩
  | case4 => exact fun q hq => absurd hq List.not_mem_nil
  | case5 => exact fun q hq => absurd hq List.not_mem_nil
  | case6 => exact fun q hq => absurd hq List.not_mem_nil

/-- The suffix ends where SQLite's does, and keeps its brackets. -/
theorem scanSuffix_eq (ps : List Placed) :
    (scanSuffix ps).2 = (cutSuffix ps).2.2 ∧
      marks (scanSuffix ps).1 =
        (cutSuffix ps).2.1.filter fun p => p.char == '(' || p.char == ')' := by
  induction ps with
  | nil => exact ⟨rfl, rfl⟩
  | cons p ps ih =>
      by_cases hspace : isSpace p.char = true
      · have hneg : ¬(!isSpace p.char && p.char != ')') = true := by
          rw [hspace]
          exact Bool.false_ne_true
        have hclose : p.char ≠ ')' := by
          intro hclose
          rw [hclose] at hspace
          exact absurd hspace (by decide)
        rw [scanSuffix, cutSuffix, afterRun_cons_of_neg hneg, run_cons_of_neg hneg, isSqliteSpace_eq, if_pos hspace]
        dsimp only
        rw [if_neg hclose]
        exact ⟨rfl, rfl⟩
      · by_cases hclose : p.char = ')'
        · have hneg : ¬(!isSpace p.char && p.char != ')') = true := by
            rw [hclose]
            decide
          rw [scanSuffix, cutSuffix, afterRun_cons_of_neg hneg, run_cons_of_neg hneg,
            isSqliteSpace_eq, if_neg hspace, if_pos hclose]
          dsimp only
          rw [if_pos hclose, marks, List.filterMap_cons, Written.mark, hclose, List.nil_append,
            List.filter_cons, hclose]
          exact ⟨rfl, rfl⟩
        · have hpos : (!isSpace p.char && p.char != ')') = true := by
            rw [Bool.eq_false_iff.mpr hspace]
            exact bne_iff_ne.mpr hclose
          have hcut : (cutSuffix (p :: ps)).2.1 = p :: (cutSuffix ps).2.1 ∧
              (cutSuffix (p :: ps)).2.2 = (cutSuffix ps).2.2 := by
            rw [cutSuffix, cutSuffix, afterRun_cons_of_pos hpos, run_cons_of_pos hpos]
            cases afterRun (fun c => !isSpace c && c != ')') ps with
            | nil => exact ⟨rfl, rfl⟩
            | cons q qs =>
                dsimp only
                split_ifs
                · exact ⟨rfl, rfl⟩
                · exact ⟨rfl, rfl⟩
          rw [hcut.1, hcut.2, scanSuffix, isSqliteSpace_eq, if_neg hspace, if_neg hclose]
          refine ⟨ih.1, ?_⟩
          rw [List.filter_cons, ← ih.2, beq_eq_false_iff_ne.mpr hclose, Bool.or_false]
          by_cases hopen : p.char = '('
          · rw [if_pos hopen, if_pos (beq_iff_eq.mpr hopen), marks, List.filterMap_cons,
              Written.mark, hopen]
            rfl
          · rw [if_neg hopen, if_neg (fun h => hopen (beq_iff_eq.mp h))]
            rfl

/-- A sigil without a name. -/
theorem scan_sigil {c : Placed} (hc : isSigil c.char = true) {ps : List Placed}
    (h : parameterNameFollows ps = false) (w : Bool) :
    scan w (c :: ps) = .kept c :: scan (isIdChar c.char) ps := by
  have hchar : c.char ≠ '\ufeff' ∧ c.char ≠ '-' ∧ c.char ≠ '/' ∧ isQuote c.char = false := by
    simp only [isSigil, Bool.or_eq_true, beq_iff_eq] at hc
    rcases hc with ((h | h) | h) | h <;> rw [h] <;> decide
  obtain ⟨hbom, hminus, hslash, hquote⟩ := hchar
  rw [scan, h, if_neg (fun hand => hbom hand.1), if_neg (fun hand => Bool.false_ne_true hand.2.2),
    if_neg (fun hand => hminus hand.1), if_neg (fun hand => hslash hand.1),
    if_neg (fun hand => ?_), isSqliteIdChar_eq]
  rw [hquote] at hand
  exact Bool.false_ne_true hand

/-- A sigil with a name. -/
theorem scan_parameter {c : Placed} (hc : isSigil c.char = true) {ps : List Placed}
    (h : parameterNameFollows ps = true) :
    scan false (c :: ps) = .kept c :: ((cutName ps).1.map .kept ++
      if next (cutName ps).2 '(' then
        (scanSuffix (cutName ps).2).1 ++ scan false (scanSuffix (cutName ps).2).2
      else scan false (cutName ps).2) := by
  have hbom : c.char ≠ '\ufeff' := by
    intro hbom
    rw [hbom] at hc
    exact absurd hc (by decide)
  rw [scan, if_neg (fun hand => hbom hand.1),
    if_pos ⟨hc, fun hand => Bool.false_ne_true hand.2, h⟩, scanName_eq]

theorem parameterNameFollows_colons {p q : Placed} (hp : p.char = ':') (hq : q.char = ':')
    (ps : List Placed) : parameterNameFollows (p :: q :: ps) = parameterNameFollows ps := by
  have hid : ¬isSqliteIdChar p.char = true := by
    rw [hp]
    decide
  rw [parameterNameFollows.eq_def]
  dsimp only
  rw [if_neg hid, if_neg (not_not.mpr hp), if_pos hq]

theorem cutName_colons {p q : Placed} (hp : p.char = ':') (hq : q.char = ':') (ps : List Placed) :
    cutName (p :: q :: ps) = (p :: q :: (cutName ps).1, (cutName ps).2) := by
  have hid : ¬isIdChar p.char = true := by
    rw [hp]
    decide
  rw [cutName.eq_def]
  dsimp only
  rw [if_neg hid, if_pos hp, if_pos hq]

/-- A colon before another one: where the name of a parameter goes on after an odd number of
colons, the scanner takes the parameter from the first one on, the tokenizer from the last. -/
theorem scan_colons {p q : Placed} (hp : p.char = ':') (hq : q.char = ':') (ps : List Placed) :
    scan false (p :: q :: ps) = .kept p :: scan false (q :: ps) := by
  have hsigil {c : Placed} (hc : c.char = ':') : isSigil c.char = true := by
    rw [hc]
    rfl
  have hid {c : Placed} (hc : c.char = ':') : isIdChar c.char = false := by
    rw [hc]
    rfl
  induction hlen : ps.length using Nat.strong_induction_on generalizing p q ps with
  | _ n ih =>
      cases hfollows : parameterNameFollows (q :: ps) with
      | false => rw [scan_sigil (hsigil hp) hfollows, hid hp]
      | true =>
          rw [scan_parameter (hsigil hp) hfollows]
          have hqid : ¬isSqliteIdChar q.char = true := by
            rw [hq]
            decide
          rw [parameterNameFollows.eq_def] at hfollows
          dsimp only at hfollows
          rw [if_neg hqid, if_neg (not_not.mpr hq)] at hfollows
          cases ps with
          | nil => exact absurd hfollows Bool.false_ne_true
          | cons r rs =>
              dsimp only at hfollows
              split_ifs at hfollows with hr
              rw [cutName_colons hq hr, ih rs.length (hlen ▸ Nat.lt_succ_self _) hq hr rs rfl,
                scan_parameter (hsigil hr) hfollows]
              rfl

/-- Pairs of colons with no name after them. -/
theorem scan_unnamed {ps : List Placed} (h : ((cutName ps).1.any fun q => isIdChar q.char) = false) :
    scan false ps = (cutName ps).1.map .kept ++ scan false (cutName ps).2 := by
  fun_induction cutName ps with
  | case1 => rfl
  | case2 p ps hp name rest hcut ih =>
      rw [List.any_cons, hp, Bool.true_or] at h
      exact absurd h.symm Bool.false_ne_true
  | case3 p hp hcolon q qs hq name rest hcut ih =>
      rw [List.any_cons, List.any_cons, Bool.or_eq_false_iff, Bool.or_eq_false_iff] at h
      have hfollows : parameterNameFollows qs = false := by
        rw [parameterNameFollows_eq, hcut]
        exact h.2.2
      have hsigil : isSigil q.char = true := by
        rw [hq]
        rfl
      rw [hcut] at ih
      rw [scan_colons hcolon hq, scan_sigil hsigil hfollows, h.2.1, ih h.2.2]
      rfl
  | case4 => rfl
  | case5 => rfl
  | case6 => rfl

/-- A parameter, or the sigil that was to start one, with the brackets of its suffix. -/
theorem Step.parameter {ps : List Placed} {t : Token} {p : Placed} {xs : List Placed}
    {written ahead : List Written}
    (hkind : t.kind = .parameter ∨ t.kind = .illegal) (htext : t.text = p :: xs)
    (hsigil : isSigil p.char = true)
    (hscan : scan false ps = .kept p :: written ++ ahead) (hrest : scan false t.rest = ahead)
    (hmarks : marks written = xs.filter fun q => q.char == '(' || q.char == ')') :
    Step ps t (.kept p :: written) [] ahead := by
  have hchar : isMark p.char = false ∧ isWhitespace p.char = false := by
    simp only [isSigil, Bool.or_eq_true, beq_iff_eq] at hsigil
    rcases hsigil with ((h | h) | h) | h <;> rw [h] <;> decide
  obtain ⟨hmark, hblank⟩ := hchar
  have hbracket : (p.char == '(' || p.char == ')') = false := by
    rw [isMark, Bool.or_assoc, Bool.or_eq_false_iff] at hmark
    exact hmark.2
  have hsemi : (p.char == ';') = false := by
    rw [isMark, Bool.or_assoc, Bool.or_eq_false_iff] at hmark
    exact hmark.1
  have htokens : tokenMarks t = xs.filter fun q => q.char == '(' || q.char == ')' := by
    have hfilter : (p :: xs).filter (fun q => q.char == '(' || q.char == ')') =
        xs.filter fun q => q.char == '(' || q.char == ')' := List.filter_cons_of_neg (by
          rw [hbracket]
          exact Bool.false_ne_true)
    rw [← hfilter, tokenMarks, htext, List.head?_cons, Option.any_some, hsigil]
    rcases hkind with hkind | hkind <;> rw [hkind] <;> rfl
  have hidle : isIdle t = false := by
    rcases hkind with hkind | hkind <;> rw [isIdle, hkind]
  exact {
    scan_eq := hscan
    rest_eq := hrest
    marks_eq := by
      rw [htokens, marks, List.filterMap_cons, Written.mark, hmark]
      exact hmarks
    glued_eq := rfl
    not_semi := by
      intro _ q hq hchar
      rw [htokens, List.mem_filter, hchar] at hq
      exact absurd hq.2 (by decide)
    semi := by
      intro hk
      rcases hkind with hkind | hkind <;> rw [hkind] at hk <;> cases hk
    blank_of_idle := by
      rw [hidle]
      exact fun h => absurd h Bool.false_ne_true
    idle_of_blank := by
      rw [List.all_cons, Written.isBlank, hblank, hsemi]
      exact fun h => absurd h Bool.false_ne_true }

theorem Reads.sigil {p : Placed} (h : CharClass.sigil.has p.char = true) (ps : List Placed) :
    Reads (p :: ps) (cutParameter p ps) := by
  have hsigil : isSigil p.char = true := h
  have hunmarked : ∀ q ∈ (cutName ps).1, ¬(q.char == '(' || q.char == ')') = true := by
    intro q hq
    have hmark := cutName_unmarked ps q hq
    rw [isMark, Bool.or_assoc, Bool.or_eq_false_iff] at hmark
    rw [hmark.2]
    exact Bool.false_ne_true
  have hname : (cutName ps).1.filter (fun q => q.char == '(' || q.char == ')') = [] :=
    List.filter_eq_nil_iff.mpr hunmarked
  have hmarks : marks ((cutName ps).1.map .kept) = [] := marks_kept (cutName_unmarked ps)
  rw [cutParameter]
  dsimp only
  cases hnamed : ((cutName ps).1.any fun q => isIdChar q.char) with
  | false =>
      rw [if_neg Bool.false_ne_true]
      have hfollows : parameterNameFollows ps = false := (parameterNameFollows_eq ps).trans hnamed
      have hstate : scan (isIdChar p.char) ps = scan false ps := by
        cases hid : isIdChar p.char with
        | false => rfl
        | true =>
            refine scan_true (not_glues_of_not_idChar ?_)
            cases ps with
            | nil => rfl
            | cons q qs =>
                rw [List.head?_cons, Option.any_some, Bool.eq_false_iff]
                intro hq
                rw [parameterNameFollows.eq_def] at hfollows
                dsimp only at hfollows
                rw [isSqliteIdChar_eq, if_pos hq] at hfollows
                exact Bool.false_ne_true hfollows.symm
      refine ⟨_, [], _, .parameter (.inr rfl) rfl hsigil ?_ rfl (hmarks.trans hname.symm)⟩
      rw [scan_sigil hsigil hfollows, hstate, scan_unnamed hnamed]
      rfl
  | true =>
      rw [if_pos rfl]
      have hfollows : parameterNameFollows ps = true := (parameterNameFollows_eq ps).trans hnamed
      have hscan := scan_parameter hsigil hfollows
      by_cases hopen : next (cutName ps).2 '(' = true
      · rw [if_pos hopen] at hscan ⊢
        have hsuffix := scanSuffix_eq (cutName ps).2
        refine ⟨.kept p :: ((cutName ps).1.map .kept ++ (scanSuffix (cutName ps).2).1), [], _,
          .parameter ?_ rfl hsigil ?_ rfl ?_⟩
        · dsimp only
          split_ifs
          · exact .inl rfl
          · exact .inr rfl
        · rw [hscan, hsuffix.1, List.cons_append, List.append_assoc]
        · rw [marks_append, hmarks, hsuffix.2, List.filter_append, hname]
      · rw [if_neg hopen] at hscan ⊢
        exact ⟨_, [], _, .parameter (.inl rfl) rfl hsigil hscan rfl (hmarks.trans hname.symm)⟩

/-! ## White space and marks -/

theorem Reads.space {p : Placed} (h : isSpace p.char = true) (ps : List Placed) :
    Reads (p :: ps) (cutRun .space isSpace p ps) := by
  have hspaces : ∀ q ∈ p :: run isSpace ps, isSpace q.char = true :=
    List.forall_mem_cons.mpr ⟨h, fun q hq => mem_run hq⟩
  have hrun := scan_run (fun c hc => ⟨(isSpace_cases hc).1, (isSpace_cases hc).2.1⟩) (p :: ps)
  rw [run_cons_of_pos h, afterRun_cons_of_pos h] at hrun
  have hsigil : isSigil p.char = false := by
    have hplain := (isSpace_cases h).1
    simp only [isPlain, Bool.and_eq_true, Bool.not_eq_true'] at hplain
    exact hplain.1.1.1.2
  refine ⟨_, [], _, .idle (.inl rfl) rfl hsigil hrun rfl ?_ fun w hw => absurd hw List.not_mem_nil⟩
  intro w hw
  obtain ⟨q, hq, rfl⟩ := List.mem_map.mp hw
  have hspace := hspaces q hq
  constructor
  · simp only [isSpace, Bool.or_eq_true, beq_iff_eq] at hspace
    rw [Written.isBlank]
    rcases hspace with ((((h | h) | h) | h) | h) | h <;> rw [h] <;> rfl
  · rw [Written.mark, (isSpace_cases hspace).2.2]
    rfl

theorem Reads.byteOrderMark {p : Placed} (hp : p.char = '\ufeff') (ps : List Placed) :
    Reads (p :: ps) (cutTake .space 0 p ps) := by
  have hsigil : isSigil p.char = false := by
    rw [hp]
    decide
  refine ⟨[.space], [], scan false ps, .idle (.inl rfl) rfl hsigil ?_ rfl (by decide)
    fun w hw => absurd hw List.not_mem_nil⟩
  rw [scan, if_pos ⟨hp, rfl⟩]
  rfl

theorem scan_mark {p : Placed} (hp : isMark p.char = true) (ps : List Placed) :
    scan false (p :: ps) = .kept p :: scan false ps := by
  have hchar : isPlain p.char = true ∧ isIdChar p.char = false := by
    simp only [isMark, Bool.or_eq_true, beq_iff_eq] at hp
    rcases hp with (h | h) | h <;> rw [h] <;> decide
  rw [scan_plain hchar.1, hchar.2]

theorem Reads.semi {p : Placed} (hp : p.char = ';') (ps : List Placed) :
    Reads (p :: ps) (cutTake .semi 0 p ps) := by
  have hmark : isMark p.char = true := by
    rw [hp]
    rfl
  refine ⟨[.kept p], [], scan false ps, ?_⟩
  exact {
    scan_eq := scan_mark hmark ps
    rest_eq := rfl
    marks_eq := by
      rw [marks, List.filterMap_cons, Written.mark, hmark]
      rfl
    glued_eq := rfl
    not_semi := fun h => absurd rfl h
    semi := fun _ => ⟨p, rfl, hp, rfl⟩
    blank_of_idle := fun _ => by
      rw [List.all_cons, Written.isBlank, hp]
      rfl
    idle_of_blank := fun _ => .inl ⟨rfl, rfl⟩ }

/-- A round bracket. -/
theorem Reads.round {p : Placed} {kind : Kind} (hp : p.char = '(' ∨ p.char = ')')
    (hkind : kind = .lp ∨ kind = .rp) (ps : List Placed) :
    Reads (p :: ps) (cutTake kind 0 p ps) := by
  have hmark : isMark p.char = true := by
    rcases hp with hp | hp <;> rw [hp] <;> rfl
  have htokens : tokenMarks (cutTake kind 0 p ps) = [p] := by
    rcases hkind with rfl | rfl <;> rfl
  have hsemi : p.char ≠ ';' := by
    rcases hp with hp | hp <;> rw [hp] <;> decide
  have hkept : (Written.kept p).isBlank = false := by
    rcases hp with hp | hp <;> rw [Written.isBlank, hp] <;> rfl
  refine ⟨[.kept p], [], scan false ps, ?_⟩
  exact {
    scan_eq := scan_mark hmark ps
    rest_eq := rfl
    marks_eq := by
      rw [htokens, marks, List.filterMap_cons, Written.mark, hmark]
      rfl
    glued_eq := rfl
    not_semi := by
      intro _ q hq
      rw [htokens, List.mem_singleton] at hq
      rw [hq]
      exact hsemi
    semi := by
      rcases hkind with rfl | rfl <;> rintro ⟨⟩
    blank_of_idle := by
      rcases hkind with rfl | rfl <;> rintro ⟨⟩
    idle_of_blank := by
      rw [List.all_cons, hkept]
      exact fun h => absurd h Bool.false_ne_true }

/-! ## Every token -/

/-- Where the scanner takes a `$` or a U+FEFF for a part of a number that SQLite has ended, or for
the start of a token inside a number that SQLite has not. -/
def stumbles (t : Token) : Bool :=
  match t.text with
  | p :: ps =>
      (p.char == '?' && !ps.isEmpty && t.rest.head?.any fun q => glues q.char) ||
        ((isDigit p.char || p.char == '.') && gluesAfterPoint t.text)
  | [] => false

theorem gluesAfterPoint_of_stumbles {p : Placed} (hfirst : isDigit p.char = true ∨ p.char = '.')
    {ps : List Placed} (h : stumbles (cutNumber (p :: ps)) = false) :
    gluesAfterPoint (cutNumber (p :: ps)).text = false := by
  have happend := cutNumber_append (p :: ps)
  have hor : (isDigit p.char || p.char == '.') = true := by
    rw [Bool.or_eq_true, beq_iff_eq]
    exact hfirst
  cases htext : (cutNumber (p :: ps)).text with
  | nil => rfl
  | cons q xs =>
      rw [htext, List.cons_append, List.cons.injEq] at happend
      obtain ⟨rfl, -⟩ := happend
      rw [stumbles, htext] at h
      dsimp only at h
      rw [hor, Bool.true_and, Bool.or_eq_false_iff] at h
      exact h.2

/-- Token by token, the scanner and the tokenizer agree. -/
theorem reads_getToken {p : Placed} {ps : List Placed} (h : stumbles (getToken p ps) = false) :
    Reads (p :: ps) (getToken p ps) := by
  have hhas := classify_has p.char
  have hplain {kind : Kind} (hkind : isSolid kind = true) (hchar : isPlain p.char = true ∧
      isIdChar p.char = false ∧ isSolidHead p.char = true) :
      Reads (p :: ps) (cutTake kind 0 p ps) :=
    ⟨_, _, _, .single hkind hchar.1 hchar.2.1 hchar.2.2 ps⟩
  rw [getToken] at h ⊢
  cases hclass : classify p.char with
  | space =>
      rw [hclass] at hhas
      exact .space hhas ps
  | minus =>
      rw [hclass] at hhas
      exact .minus (beq_iff_eq.mp hhas) ps
  | slash =>
      rw [hclass] at hhas
      exact .slash (beq_iff_eq.mp hhas) ps
  | semi =>
      rw [hclass] at hhas
      exact .semi (beq_iff_eq.mp hhas) ps
  | lp =>
      rw [hclass] at hhas
      exact .round (.inl (beq_iff_eq.mp hhas)) (.inl rfl) ps
  | rp =>
      rw [hclass] at hhas
      exact .round (.inr (beq_iff_eq.mp hhas)) (.inr rfl) ps
  | quote =>
      rw [hclass] at hhas
      exact .quote hhas ps
  | bracket =>
      rw [hclass] at hhas
      exact .bracket (beq_iff_eq.mp hhas) ps
  | digit =>
      rw [hclass] at h hhas
      exact .number (.inl hhas) (gluesAfterPoint_of_stumbles (.inl hhas) h)
  | dot =>
      rw [hclass] at h hhas
      have hdot : p.char = '.' := beq_iff_eq.mp hhas
      dsimp only at h ⊢
      split_ifs at h ⊢ with hdigit
      · exact .number (.inr hdot) (gluesAfterPoint_of_stumbles (.inr hdot) h)
      · refine hplain rfl ?_
        rw [hdot]
        decide
  | question =>
      rw [hclass] at h hhas
      have hquestion : p.char = '?' := beq_iff_eq.mp hhas
      refine .question hquestion ?_
      dsimp only at h
      rw [stumbles, cutRun] at h
      dsimp only at h
      rw [hquestion, beq_self_eq_true, Bool.true_and, Bool.or_eq_false_iff, Bool.and_eq_false_iff,
        Bool.not_eq_false', List.isEmpty_iff] at h
      exact h.1
  | sigil =>
      rw [hclass] at hhas
      exact .sigil hhas ps
  | x =>
      rw [hclass] at hhas
      exact .x hhas ps
  | bom =>
      rw [hclass] at hhas
      exact .byteOrderMark (beq_iff_eq.mp hhas) ps
  | word =>
      rw [hclass] at hhas
      simp only [CharClass.has, Bool.and_eq_true, Bool.not_eq_true', bne_iff_ne, ne_eq] at hhas
      have hglues : glues p.char = false := by
        rw [glues, Bool.or_eq_false_iff, beq_eq_false_iff_ne, beq_eq_false_iff_ne]
        exact ⟨hhas.1.1.1.2, hhas.1.1.2⟩
      exact .word hhas.1.1.1.1.1 hglues ps
  | comparison =>
      rw [hclass] at hhas
      exact .comparison hhas ps
  | operator =>
      rw [hclass] at hhas
      refine hplain rfl ?_
      simp only [CharClass.has, Bool.or_eq_true, beq_iff_eq] at hhas
      rcases hhas with ((((h | h) | h) | h) | h) | h <;> rw [h] <;> decide
  | illegal => exact hplain rfl (illegal_cases hclass)

end Victauri.Plugin.Database
