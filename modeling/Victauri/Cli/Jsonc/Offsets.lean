import Mathlib.Data.List.Forall2
import Victauri.Cli.Jsonc
import Victauri.Cli.RustCode.Offsets

/-!
# Blanking JSONC keeps every offset

What the two passes do together, byte for byte, from a place in or outside a string: every byte is
kept or becomes a space, line ends and the contents of strings are kept, and the result is a text.
-/

namespace Victauri.Cli.Jsonc

open Utf8
open Victauri.Cli.RustCode

/-! ## Both passes -/

/-- What the passes make of the bytes from a place outside a string, or in one. -/
inductive Blanks : (in_string : Bool) → List UInt8 → List UInt8 → Prop
  | done (in_string : Bool) : Blanks in_string [] []
  | escape {d : UInt8} {rest out : List UInt8} (h : Blanks true rest out) :
      Blanks true ('\\'.toUInt8 :: d :: rest) ('\\'.toUInt8 :: d :: out)
  | cut : Blanks true ['\\'.toUInt8] ['\\'.toUInt8]
  | close {rest out : List UInt8} (h : Blanks false rest out) :
      Blanks true ('"'.toUInt8 :: rest) ('"'.toUInt8 :: out)
  | inside {c : UInt8} {rest out : List UInt8} (hslash : c ≠ '\\'.toUInt8)
      (hquote : c ≠ '"'.toUInt8) (h : Blanks true rest out) : Blanks true (c :: rest) (c :: out)
  | quote {rest out : List UInt8} (h : Blanks true rest out) :
      Blanks false ('"'.toUInt8 :: rest) ('"'.toUInt8 :: out)
  | comment {c : UInt8} {rest out : List UInt8} {n : Nat} (hn : commentLength c rest = some n)
      (h : Blanks false ((c :: rest).drop n) out) :
      Blanks false (c :: rest) (((c :: rest).take n).map blank ++ out)
  | comma {rest out : List UInt8} (h : Blanks false rest out) :
      Blanks false (','.toUInt8 :: rest) (' '.toUInt8 :: out)
  | code {c : UInt8} {rest out : List UInt8} (hquote : c ≠ '"'.toUInt8)
      (hn : commentLength c rest = none) (h : Blanks false rest out) :
      Blanks false (c :: rest) (c :: out)

/-- The second pass finds nothing in what the first has blanked. -/
theorem commaLoop_blank (chunk rest : List UInt8) :
    commaLoop false (chunk.map blank ++ rest) = chunk.map blank ++ commaLoop false rest := by
  induction chunk with
  | nil => rfl
  | cons b chunk ih =>
    have hb : blank b ≠ '"'.toUInt8 ∧ blank b ≠ ','.toUInt8 := by
      unfold blank
      split_ifs with h
      · decide
      · rcases not_and_or.mp h with h | h
        · rw [not_not.mp h]
          decide
        · rw [not_not.mp h]
          decide
    rw [List.map_cons, List.cons_append, commaLoop_code hb.1 fun h => hb.2 h.1, ih]
    rfl

theorem blanks_passes (in_string : Bool) (bs : List UInt8) :
    Blanks in_string bs (commaLoop in_string (blankLoop in_string bs)) := by
  induction in_string, bs using blankLoop.induct with
  | case1 in_string =>
    rw [blankLoop, commaLoop]
    exact Blanks.done in_string
  | case2 =>
    rw [blankLoop, if_pos rfl]
    exact Blanks.cut
  | case3 d rest ih =>
    rw [blankLoop_escape, commaLoop_escape]
    exact Blanks.escape ih
  | case4 rest hslash ih =>
    rw [blankLoop_close, commaLoop_close]
    exact Blanks.close ih
  | case5 c rest hslash hquote ih =>
    rw [blankLoop_inside hslash hquote, commaLoop_inside hslash hquote]
    exact Blanks.inside hslash hquote ih
  | case6 rest ih =>
    rw [blankLoop_quote, commaLoop_quote]
    exact Blanks.quote ih
  | case7 c rest hquote n hn ih =>
    rw [blankLoop_comment hn, commaLoop_blank]
    exact Blanks.comment hn ih
  | case8 c rest hquote hn ih =>
    rw [blankLoop_code hquote hn]
    by_cases hcomma : c = ','.toUInt8 ∧ closes (blankLoop false rest) = true
    · rw [hcomma.1, commaLoop_comma hcomma.2]
      exact Blanks.comma ih
    · rw [commaLoop_code hquote hcomma]
      exact Blanks.code hquote hn ih

/-! ## Bytes -/

/-- What may stand in the place of a byte. -/
def Kept (c d : UInt8) : Prop := d = c ∨ ¬ IsEol c ∧ d = ' '.toUInt8

theorem kept_blank (c : UInt8) : Kept c (blank c) := by
  by_cases hc : IsEol c
  · exact Or.inl ((@emit_eq_eol true c c hc).mpr rfl)
  · rcases blank_eq c with h | h
    · exact Or.inl h
    · exact Or.inr ⟨hc, h⟩

theorem Blanks.kept {in_string : Bool} {bs out : List UInt8} (h : Blanks in_string bs out) :
    List.Forall₂ Kept bs out := by
  induction h with
  | done => exact List.Forall₂.nil
  | escape _ ih => exact List.Forall₂.cons (Or.inl rfl) (List.Forall₂.cons (Or.inl rfl) ih)
  | cut => exact List.Forall₂.cons (Or.inl rfl) List.Forall₂.nil
  | close _ ih => exact List.Forall₂.cons (Or.inl rfl) ih
  | inside _ _ _ ih => exact List.Forall₂.cons (Or.inl rfl) ih
  | quote _ ih => exact List.Forall₂.cons (Or.inl rfl) ih
  | @comment c rest out n hn _ ih =>
    have hchunk : List.Forall₂ Kept ((c :: rest).take n) (((c :: rest).take n).map blank) := by
      rw [List.forall₂_map_right_iff, List.forall₂_same]
      exact fun b _ => kept_blank b
    have hboth := List.rel_append hchunk ih
    dsimp only at hboth
    rwa [List.take_append_drop] at hboth
  | comma _ ih => exact List.Forall₂.cons (Or.inr ⟨by decide, rfl⟩) ih
  | code _ _ _ ih => exact List.Forall₂.cons (Or.inl rfl) ih

theorem getElem?_eq_eol {bs out : List UInt8} (h : List.Forall₂ Kept bs out) {b : UInt8}
    (hb : IsEol b) (i : Nat) : out[i]? = some b ↔ bs[i]? = some b := by
  induction h generalizing i with
  | nil => rfl
  | @cons c d bs out hkept _ ih =>
    cases i with
    | succ i => exact ih i
    | zero =>
      rw [List.getElem?_cons_zero, List.getElem?_cons_zero, Option.some_inj, Option.some_inj]
      rcases hkept with rfl | ⟨hc, rfl⟩
      · rfl
      · constructor
        · rintro rfl
          exact absurd hb (by decide)
        · rintro rfl
          exact absurd hb hc

/-! ## Texts -/

theorem ends_commentLength {c : UInt8} {rest : List UInt8} {n : Nat}
    (h : commentLength c rest = some n) : IsAscii c ∧ Ends (c :: rest) n := by
  have hblock : ∀ bs : List UInt8, Ends bs (blockLength bs) := by
    intro bs
    induction bs with
    | nil => exact Or.inl (Nat.le_refl 0)
    | cons c rest ih =>
      unfold blockLength
      split_ifs with hclose
      · obtain ⟨rest, rfl⟩ := List.head?_eq_some_iff.mp hclose.2
        exact @ends_behind _ 1 '/'.toUInt8 (by decide) rfl
      · exact ih.cons c
  unfold commentLength at h
  split_ifs at h with hline hopen
  · rw [← Option.some.inj h]
    exact ⟨by rw [hline.1]; decide, ends_lineLength _⟩
  · obtain ⟨rest, rfl⟩ := List.head?_eq_some_iff.mp hopen.2
    rw [← Option.some.inj h, List.drop_succ_cons, List.drop_zero,
      show 2 + blockLength rest = 1 + (1 + blockLength rest) by omega]
    exact ⟨by rw [hopen.1]; decide, ((hblock rest).cons _).cons c⟩

theorem commentLength_le {c : UInt8} {rest : List UInt8} {n : Nat}
    (h : commentLength c rest = some n) : n ≤ (c :: rest).length := by
  have hblock : ∀ bs : List UInt8, blockLength bs ≤ bs.length := by
    intro bs
    induction bs with
    | nil => exact Nat.le_refl 0
    | cons c rest ih =>
      unfold blockLength
      split_ifs with hclose
      · obtain ⟨rest, rfl⟩ := List.head?_eq_some_iff.mp hclose.2
        exact Nat.le_add_left 2 rest.length
      · rw [List.length_cons]
        omega
  unfold commentLength at h
  split_ifs at h with hline hopen
  · rw [← Option.some.inj h]
    exact (List.takeWhile_prefix _).length_le
  · obtain ⟨rest, rfl⟩ := List.head?_eq_some_iff.mp hopen.2
    have hrest := hblock rest
    rw [← Option.some.inj h, List.drop_succ_cons, List.drop_zero, List.length_cons,
      List.length_cons]
    omega

/-- Where the bytes are a text, or the rest of one behind the first byte of a character, the others
are so too. -/
def Texts (bs out : List UInt8) : Prop :=
  ∀ (highs : List UInt8) (text : List Char), (∀ b ∈ highs, ¬ IsAscii b) →
    bs = highs ++ encode text → ∃ text', out = highs ++ encode text'

theorem Texts.cons {rest out : List UInt8} (h : Texts rest out) (c : UInt8) :
    Texts (c :: rest) (c :: out) := by
  intro highs text hhigh hbs
  cases highs with
  | cons b highs =>
    obtain ⟨rfl, hrest⟩ := List.cons.inj hbs
    obtain ⟨text', rfl⟩ := h highs text (fun d hd => hhigh d (List.mem_cons_of_mem _ hd)) hrest
    exact ⟨text', rfl⟩
  | nil =>
    cases text with
    | nil => cases hbs
    | cons a text =>
      obtain ⟨b, more, hbytes, -⟩ := encodeChar_eq_cons a
      rw [List.nil_append, encode_cons, hbytes] at hbs
      obtain ⟨rfl, hrest⟩ := List.cons.inj hbs
      obtain ⟨text', rfl⟩ := h more text (not_isAscii_tail hbytes) hrest
      refine ⟨a :: text', ?_⟩
      rw [List.nil_append, encode_cons, hbytes]
      rfl

/-- An ASCII byte is not behind the first byte of a character. -/
theorem eq_nil_of_isAscii {c : UInt8} (hc : IsAscii c) {highs bs rest : List UInt8}
    (hhigh : ∀ b ∈ highs, ¬ IsAscii b) (h : c :: rest = highs ++ bs) : highs = [] := by
  cases highs with
  | nil => rfl
  | cons b highs =>
    obtain ⟨rfl, -⟩ := List.cons.inj h
    exact absurd hc (hhigh _ List.mem_cons_self)

theorem Texts.comma {rest out : List UInt8} (h : Texts rest out) :
    Texts (','.toUInt8 :: rest) (' '.toUInt8 :: out) := by
  intro highs text hhigh hbs
  obtain rfl := eq_nil_of_isAscii (by decide) hhigh hbs
  rw [List.nil_append] at hbs
  have hhead : text.head? = some ',' := by
    rw [← head?_encode (by decide), ← hbs]
    rfl
  obtain ⟨text, rfl⟩ := List.head?_eq_some_iff.mp hhead
  obtain ⟨text', rfl⟩ := h [] text (List.forall_mem_nil _) (List.cons.inj hbs).2
  exact ⟨' ' :: text', rfl⟩

theorem Texts.comment {c : UInt8} {rest out : List UInt8} {n : Nat}
    (hn : commentLength c rest = some n) (h : Texts ((c :: rest).drop n) out) :
    Texts (c :: rest) (((c :: rest).take n).map blank ++ out) := by
  intro highs text hhigh hbs
  obtain ⟨hc, hends⟩ := ends_commentLength hn
  obtain rfl := eq_nil_of_isAscii hc hhigh hbs
  rw [List.nil_append] at hbs
  rw [hbs] at hends h ⊢
  obtain ⟨front, back, hsplit, hlength⟩ := hends.cuts
  have htake : (encode text).take n = encode front := by
    rw [List.take_eq_take_min, hlength, hsplit, List.take_left]
  have hdrop : (encode text).drop n = encode back := by
    rw [List.drop_eq_drop_min, hlength, hsplit, List.drop_left]
  rw [hdrop] at h
  obtain ⟨back', rfl⟩ := h [] back (List.forall_mem_nil _) rfl
  obtain ⟨blanked, hblanked⟩ := map_blank_encode front
  refine ⟨blanked ++ back', ?_⟩
  rw [htake, hblanked, encode_append]
  rfl

theorem Blanks.texts {in_string : Bool} {bs out : List UInt8} (h : Blanks in_string bs out) :
    Texts bs out := by
  have hnil : Texts [] [] := by
    rintro highs text - hbs
    obtain ⟨rfl, htext⟩ := List.append_eq_nil_iff.mp hbs.symm
    exact ⟨[], rfl⟩
  induction h with
  | done => exact hnil
  | escape _ ih => exact (ih.cons _).cons _
  | cut => exact hnil.cons _
  | close _ ih => exact ih.cons _
  | inside _ _ _ ih => exact ih.cons _
  | quote _ ih => exact ih.cons _
  | comment hn _ ih => exact Texts.comment hn ih
  | comma _ ih => exact ih.comma
  | code _ _ _ ih => exact ih.cons _

/-- The bytes of the result are those the passes leave. -/
theorem bytes_blankJsonc (text : String) :
    bytes (blankJsonc text) = commaLoop false (blankLoop false (bytes text)) := by
  have hblanks := (blanks_passes false (bytes text)).texts
  obtain ⟨out, hout⟩ := hblanks [] text.toList (List.forall_mem_nil _) (bytes_eq_encode text)
  rw [List.nil_append] at hout
  rw [blankJsonc, hout, fromUTF8?_encode, Option.getD_some, bytes_ofList]

theorem blanks_bytes (text : String) : Blanks false (bytes text) (bytes (blankJsonc text)) := by
  rw [bytes_blankJsonc]
  exact blanks_passes false (bytes text)

/-! ## Strings -/

/-- Where a reader of the bytes stands: in code, behind a `/` of it, in a line comment, in a block
comment, behind a `*` of it, in a string, or behind a backslash of it. -/
inductive Place where
  | code
  | slash
  | line
  | block
  | star
  | string
  | escape
  deriving DecidableEq

def Place.step : Place → UInt8 → Place
  | .code, b =>
      if b = '"'.toUInt8 then .string else if b = '/'.toUInt8 then .slash else .code
  | .slash, b =>
      if b = '/'.toUInt8 then .line
      else if b = '*'.toUInt8 then .block
      else if b = '"'.toUInt8 then .string
      else .code
  | .line, b => if b = '\n'.toUInt8 then .code else .line
  | .block, b => if b = '*'.toUInt8 then .star else .block
  | .star, b =>
      if b = '/'.toUInt8 then .code else if b = '*'.toUInt8 then .star else .block
  | .string, b =>
      if b = '\\'.toUInt8 then .escape else if b = '"'.toUInt8 then .code else .string
  | .escape, _ => .string

def Place.IsString (p : Place) : Prop := p = .string ∨ p = .escape

instance (p : Place) : Decidable p.IsString := inferInstanceAs (Decidable (_ ∨ _))

/-- The byte at `i` is behind the opening quote of a string and not behind its closing one. -/
def InString (bs : List UInt8) (i : Nat) : Prop :=
  ((bs.take i).foldl Place.step .code).IsString

/-- From this place on the bytes are read as from code. -/
def Place.LikeCode (p : Place) (bs : List UInt8) : Prop :=
  ¬ p.IsString ∧ ∀ b, bs.head? = some b → p.step b = Place.code.step b

theorem likeCode_code (bs : List UInt8) : Place.code.LikeCode bs :=
  ⟨by decide, fun _ _ => rfl⟩

/-- The bytes of a block comment behind its `/*`, from a place where its `*/` is not half read. -/
theorem block_places (bs : List UInt8) (p : Place)
    (hp : p = .block ∨ p = .star ∧ bs.head? ≠ some '/'.toUInt8) :
    (∀ i, i ≤ blockLength bs → ¬ ((bs.take i).foldl Place.step p).IsString) ∧
      ((bs.take (blockLength bs)).foldl Place.step p).LikeCode (bs.drop (blockLength bs)) := by
  have hstring : ¬ p.IsString := by
    rcases hp with rfl | ⟨rfl, -⟩
    · decide
    · decide
  induction bs generalizing p with
  | nil =>
    refine ⟨?_, hstring, nofun⟩
    intro i hi
    rw [Nat.le_zero.mp hi]
    exact hstring
  | cons c rest ih =>
    unfold blockLength
    split_ifs with hclose
    · obtain ⟨rfl, hrest⟩ := hclose
      obtain ⟨rest, rfl⟩ := List.head?_eq_some_iff.mp hrest
      have hstar : p.step '*'.toUInt8 = .star := by
        rcases hp with rfl | ⟨rfl, -⟩
        · rfl
        · rfl
      constructor
      · intro i hi
        match i, hi with
        | 0, _ => exact hstring
        | 1, _ =>
          change ¬ (p.step '*'.toUInt8).IsString
          rw [hstar]
          decide
        | 2, _ =>
          change ¬ ((p.step '*'.toUInt8).step '/'.toUInt8).IsString
          rw [hstar]
          decide
      · change ((p.step '*'.toUInt8).step '/'.toUInt8).LikeCode rest
        rw [hstar]
        exact likeCode_code rest
    · have hnext : p.step c = .block ∨ p.step c = .star ∧ rest.head? ≠ some '/'.toUInt8 := by
        by_cases hc : c = '*'.toUInt8
        · refine Or.inr ⟨?_, fun h => hclose ⟨hc, h⟩⟩
          rw [hc]
          rcases hp with rfl | ⟨rfl, -⟩
          · rfl
          · rfl
        · left
          rcases hp with rfl | ⟨rfl, hhead⟩
          · exact if_neg hc
          · have hslash : c ≠ '/'.toUInt8 := fun h => hhead (congrArg some h)
            exact (if_neg hslash).trans (if_neg hc)
      have hnextString : ¬ (p.step c).IsString := by
        rcases hnext with h | ⟨h, -⟩
        · rw [h]
          decide
        · rw [h]
          decide
      obtain ⟨hinside, hlike⟩ := ih (p.step c) hnext hnextString
      rw [Nat.add_comm]
      refine ⟨?_, hlike⟩
      intro i hi
      cases i with
      | zero => exact hstring
      | succ i => exact hinside i (Nat.le_of_succ_le_succ hi)

theorem line_places (bs : List UInt8) :
    (∀ i, i ≤ lineLength bs → ¬ ((bs.take i).foldl Place.step .line).IsString) ∧
      ((bs.take (lineLength bs)).foldl Place.step .line).LikeCode (bs.drop (lineLength bs)) := by
  have hstring : ¬ Place.line.IsString := by decide
  induction bs with
  | nil =>
    refine ⟨?_, hstring, nofun⟩
    intro i hi
    rw [Nat.le_zero.mp hi]
    exact hstring
  | cons c rest ih =>
    unfold lineLength at ih ⊢
    by_cases hc : c = '\n'.toUInt8
    · rw [List.takeWhile_cons_of_neg (by rw [hc]; decide)]
      refine ⟨?_, hstring, ?_⟩
      · intro i hi
        rw [Nat.le_zero.mp hi]
        exact hstring
      · intro b hb
        have hcb : c = b := Option.some.inj hb
        rw [← hcb, hc]
        rfl
    · rw [List.takeWhile_cons_of_pos (by rw [decide_eq_true_iff]; exact hc)]
      have hstep : Place.line.step c = .line := if_neg hc
      obtain ⟨hinside, hlike⟩ := ih
      constructor
      · intro i hi
        cases i with
        | zero => exact hstring
        | succ i =>
          rw [List.take_succ_cons, List.foldl_cons, hstep]
          exact hinside i (Nat.le_of_succ_le_succ hi)
      · rw [List.length_cons, List.take_succ_cons, List.foldl_cons, hstep]
        exact hlike

/-- No byte of a comment is one of a string, and behind it there is code. -/
theorem comment_places {c : UInt8} {rest : List UInt8} {n : Nat}
    (hn : commentLength c rest = some n) :
    (∀ i, i ≤ n → ¬ (((c :: rest).take i).foldl Place.step .code).IsString) ∧
      (((c :: rest).take n).foldl Place.step .code).LikeCode ((c :: rest).drop n) := by
  have hcode : ¬ Place.code.IsString := by decide
  have hslash : ¬ Place.slash.IsString := by decide
  unfold commentLength at hn
  split_ifs at hn with hline hopen
  · obtain ⟨rest, rfl⟩ := List.head?_eq_some_iff.mp hline.2
    obtain ⟨hinside, hlike⟩ := line_places rest
    have hlength : lineLength (c :: '/'.toUInt8 :: rest) = lineLength rest + 2 := by
      unfold lineLength
      rw [hline.1, List.takeWhile_cons_of_pos (by decide), List.takeWhile_cons_of_pos (by decide)]
      rfl
    rw [← Option.some.inj hn, hlength, hline.1]
    refine ⟨?_, hlike⟩
    intro i hi
    match i, hi with
    | 0, _ => exact hcode
    | 1, _ => exact hslash
    | i + 2, hi => exact hinside i (by omega)
  · obtain ⟨rest, rfl⟩ := List.head?_eq_some_iff.mp hopen.2
    obtain ⟨hinside, hlike⟩ := block_places rest .block (Or.inl rfl)
    rw [← Option.some.inj hn, hopen.1, List.drop_succ_cons, List.drop_zero, Nat.add_comm]
    refine ⟨?_, hlike⟩
    intro i hi
    match i, hi with
    | 0, _ => exact hcode
    | 1, _ => exact hslash
    | i + 2, hi => exact hinside i (by omega)

theorem likeCode_step {c : UInt8} {rest : List UInt8} (hquote : c ≠ '"'.toUInt8)
    (hn : commentLength c rest = none) : (Place.code.step c).LikeCode rest := by
  by_cases hc : c = '/'.toUInt8
  · rw [hc, show Place.code.step '/'.toUInt8 = .slash from rfl]
    refine ⟨by decide, ?_⟩
    intro b hb
    unfold commentLength at hn
    split_ifs at hn with hline hopen
    have hslash : b ≠ '/'.toUInt8 := fun h => hline ⟨hc, h ▸ hb⟩
    have hstar : b ≠ '*'.toUInt8 := fun h => hopen ⟨hc, h ▸ hb⟩
    have hcode : Place.code.step b = if b = '"'.toUInt8 then .string else .code := by
      rw [Place.step, if_neg hslash]
    rw [hcode]
    exact (if_neg hslash).trans (if_neg hstar)
  · have hstep : Place.code.step c = .code := (if_neg hquote).trans (if_neg hc)
    rw [hstep]
    exact likeCode_code rest

/-- A reader and the passes agree on where they stand. -/
def Place.Agrees (p : Place) (in_string : Bool) (bs : List UInt8) : Prop :=
  if in_string then p = .string else p.LikeCode bs

theorem Place.LikeCode.foldl_take {p : Place} {c : UInt8} {rest : List UInt8}
    (h : p.LikeCode (c :: rest)) (i : Nat) :
    ((c :: rest).take (i + 1)).foldl Place.step p =
      ((c :: rest).take (i + 1)).foldl Place.step .code := by
  rw [List.take_succ_cons, List.foldl_cons, List.foldl_cons, h.2 c rfl]

/-- The bytes of strings are kept. -/
theorem Blanks.keeps {in_string : Bool} {bs out : List UInt8} (h : Blanks in_string bs out)
    {p : Place} (hp : p.Agrees in_string bs) {i : Nat}
    (hi : ((bs.take i).foldl Place.step p).IsString) : out[i]? = bs[i]? := by
  induction h generalizing p i with
  | done => rfl
  | cut => rfl
  | escape _ ih =>
    obtain rfl : p = .string := hp
    match i with
    | 0 => rfl
    | 1 => rfl
    | i + 2 => exact ih rfl hi
  | @close rest out _ ih =>
    obtain rfl : p = .string := hp
    cases i with
    | zero => rfl
    | succ i => exact ih (likeCode_code rest) hi
  | inside hslash hquote _ ih =>
    obtain rfl : p = .string := hp
    cases i with
    | zero => rfl
    | succ i =>
      rw [List.take_succ_cons, List.foldl_cons, Place.step, if_neg hslash, if_neg hquote] at hi
      exact ih rfl hi
  | quote _ ih =>
    cases i with
    | zero => rfl
    | succ i =>
      rw [Place.LikeCode.foldl_take hp] at hi
      exact ih rfl hi
  | @comma rest out _ ih =>
    cases i with
    | zero => exact absurd hi hp.1
    | succ i =>
      rw [Place.LikeCode.foldl_take hp] at hi
      exact ih (likeCode_code rest) hi
  | code hquote hn _ ih =>
    cases i with
    | zero => rfl
    | succ i =>
      rw [Place.LikeCode.foldl_take hp] at hi
      exact ih (likeCode_step hquote hn) hi
  | @comment c rest out n hn hrest ih =>
    obtain ⟨hinside, hlike⟩ := comment_places hn
    cases i with
    | zero => exact absurd hi hp.1
    | succ i =>
      rw [Place.LikeCode.foldl_take hp] at hi
      have hle : n ≤ i + 1 := by
        by_contra hlt
        exact hinside (i + 1) (Nat.le_of_not_le hlt) hi
      obtain ⟨j, hj⟩ := Nat.exists_eq_add_of_le hle
      rw [hj, List.take_add, List.foldl_append] at hi
      have hchunk : (((c :: rest).take n).map blank).length = n := by
        rw [List.length_map, List.length_take]
        exact Nat.min_eq_left (commentLength_le hn)
      rw [hj, List.getElem?_append_right (by omega), hchunk, Nat.add_sub_cancel_left, ih hlike hi,
        List.getElem?_drop]

end Victauri.Cli.Jsonc
