import Victauri.Cli.Patch
import Victauri.Cli.RustCode.Blanking
import Victauri.Cli.RustCode.Inside

/-!
# What the patches write

The text with one piece more, where its line ends are all alike.
-/

namespace Victauri.Cli.Patch

open Lines (splitInclusive stripEnd Mixed)
open RustCode Utf8
open Run (Text isWhitespace)

-- A quantifier over the characters of a text is decided along the text.
attribute [local instance (1100)] List.decidableBAll

/-! ## The code of a text -/

theorem encode_codeOf (content : Text) : encode (codeOf content) = codeBytes (encode content) := by
  unfold codeOf
  rw [← bytes_eq_encode, bytes_rustCodeOnly, bytes_ofList]

/-- A byte of the code is the byte of the text or blanked. -/
def Blanked (c d : UInt8) : Prop := d = c ∨ d = blank c

theorem Blanked.eq_newline_iff {c d : UInt8} (h : Blanked c d) :
    c = '\n'.toUInt8 ↔ d = '\n'.toUInt8 := by
  have hblank : blank c = '\n'.toUInt8 ↔ c = '\n'.toUInt8 :=
    @emit_eq_eol true _ c (Or.inl rfl)
  rcases h with rfl | rfl
  · exact Iff.rfl
  · exact hblank.symm

theorem splitInclusive_encode (text : Text) :
    (splitInclusive '\n' text).map encode = splitInclusive '\n'.toUInt8 (encode text) := by
  have hnot : ∀ body : Text, '\n' ∉ body → '\n'.toUInt8 ∉ encode body := fun body hbody hmem =>
    hbody ((mem_encode (by decide)).mp hmem)
  induction text using Lines.lines_induction '\n' with
  | nil => rfl
  | last body hbody hne =>
    have hbytes : encode body ≠ [] := by
      obtain ⟨c, body, rfl⟩ := List.exists_cons_of_ne_nil hne
      exact List.append_ne_nil_of_left_ne_nil (encodeChar_ne_nil c) _
    rw [Lines.splitInclusive_last hbody hne, Lines.splitInclusive_last (hnot body hbody) hbytes]
    rfl
  | cons body rest hbody ih =>
    have hline : encode (body ++ '\n' :: rest) = encode body ++ '\n'.toUInt8 :: encode rest := by
      rw [encode_append, encode_cons, encodeChar_ascii (by decide)]
      rfl
    rw [Lines.splitInclusive_cons hbody, hline, Lines.splitInclusive_cons (hnot body hbody),
      List.map_cons, ih, encode_append, encode_singleton (by decide)]

/-- The code has its lines where the text has them. -/
theorem forall₂_pieces (content : Text) :
    List.Forall₂ (fun piece codePiece => List.Forall₂ Blanked (encode piece) (encode codePiece))
      (splitInclusive '\n' content) (splitInclusive '\n' (codeOf content)) := by
  have h := @Lines.forall₂_splitInclusive _ _ '\n'.toUInt8 _ _ '\n'.toUInt8 Blanked
    (fun c d h => h.eq_newline_iff) (encode content) (codeBytes (encode content))
    (forall₂_scan [] 0 false _)
  rw [← encode_codeOf, ← splitInclusive_encode, ← splitInclusive_encode,
    List.forall₂_map_left_iff, List.forall₂_map_right_iff] at h
  exact h

theorem length_lines_codeOf (content : Text) :
    (lines (codeOf content)).length = (splitInclusive '\n' content).length := by
  unfold lines Lines.lines
  rw [List.length_map]
  exact (forall₂_pieces content).length_eq.symm

/-! ## The line before which the plugin goes -/

/-- The first code line with `.run(tauri::generate_context` or `.build(tauri::generate_context`. -/
def runLine (content : Text) : Option Nat := (lines (codeOf content)).findIdx? isRunLine

/-- The text before a line. -/
def linesBefore (content : Text) (i : Nat) : Text := ((splitInclusive '\n' content).take i).flatten

theorem runLine_of_insertIdx {content : Text} {idx : Nat}
    (h : insertIdx (lines (codeOf content)) = some idx) : runLine content = some idx := by
  unfold insertIdx at h
  unfold runLine
  cases hrun : (lines (codeOf content)).findIdx? isRunLine with
  | none =>
    rw [hrun] at h
    cases h
  | some i =>
    rw [hrun] at h
    change (if _ then some i else none) = some idx at h
    split_ifs at h with hcond
    exact h

theorem trim_subset {text : Text} {c : Char} (h : c ∈ trim text) : c ∈ text := by
  unfold trim at h
  rw [List.mem_reverse] at h
  have hinner := (List.dropWhile_sublist _).subset h
  rw [List.mem_reverse] at hinner
  exact (List.dropWhile_sublist _).subset hinner

theorem mem_of_contains {pattern text : Text} (h : contains pattern text = true) {c : Char}
    (hc : c ∈ pattern) : c ∈ text :=
  List.IsInfix.subset (of_decide_eq_true h) hc

theorem mem_of_isRunLine {line : Text} (h : isRunLine line = true) : 'x' ∈ line := by
  unfold isRunLine at h
  rw [Bool.or_eq_true] at h
  apply trim_subset
  rcases h with h | h
  · exact mem_of_contains h (by decide)
  · exact mem_of_contains h (by decide)

theorem Blanked.eq_of_ne_blank {c d : UInt8} (h : Blanked c d) (hd : d ≠ ' '.toUInt8) : c = d := by
  rcases h with h | h
  · exact h.symm
  · rcases blank_eq c with hsame | hspace
    · rw [h, hsame]
    · exact absurd (h.trans hspace) hd

/-- A character of the code that is no space is one of the text. -/
theorem mem_of_forall₂_blanked {text code : Text}
    (h : List.Forall₂ Blanked (encode text) (encode code)) {d : Char} (hd : d.toNat < 0x80)
    (hne : d.toUInt8 ≠ ' '.toUInt8) (hmem : d ∈ code) : d ∈ text := by
  have hbyte := (mem_encode hd).mpr hmem
  obtain ⟨i, hi, hget⟩ := List.getElem_of_mem hbyte
  have hlt : i < (encode text).length := h.length_eq ▸ hi
  have hrel := h.get hlt hi
  rw [List.get_eq_getElem, List.get_eq_getElem, hget] at hrel
  apply (mem_encode hd).mp
  rw [← hrel.eq_of_ne_blank hne]
  exact List.getElem_mem hlt

/-- The text of the line itself, with its end. -/
theorem exists_runLine {content : Text} {idx : Nat} (h : runLine content = some idx) :
    ∃ piece rest, (splitInclusive '\n' content).drop idx = piece :: rest ∧
      'x' ∈ piece := by
  obtain ⟨hcode, hrun, -⟩ := List.findIdx?_eq_some_iff_getElem.mp h
  have hpieces := forall₂_pieces content
  have hlt : idx < (splitInclusive '\n' content).length := length_lines_codeOf content ▸ hcode
  have hltcode : idx < (splitInclusive '\n' (codeOf content)).length := hpieces.length_eq ▸ hlt
  refine ⟨_, _, List.drop_eq_getElem_cons hlt, ?_⟩
  apply mem_of_forall₂_blanked (hpieces.get hlt hltcode) (by decide) (by decide)
  apply (Lines.stripEnd_sublist _).subset
  apply mem_of_isRunLine
  have hline : (lines (codeOf content)).get ⟨idx, hcode⟩ =
      stripEnd '\n' '\r' ((splitInclusive '\n' (codeOf content)).get ⟨idx, hltcode⟩) :=
    List.getElem_map _
  change isRunLine ((lines (codeOf content)).get ⟨idx, hcode⟩) = true at hrun
  rw [hline] at hrun
  exact hrun

/-! ## The plugin line -/

/-- The call on a line of its own, indented. -/
def IsPluginLine (piece : Text) : Prop :=
  ∃ indent eol, (∀ c ∈ indent, isWhitespace c = true ∧ c ≠ '\n') ∧
    (eol = ['\n'] ∨ eol = ['\r', '\n']) ∧ piece = indent ++ pluginCall ++ eol

/-- The new text is the text with a plugin line put in outside comments and literals. -/
def PluginInserted (content newContent : Text) : Prop :=
  ∃ front piece back, IsPluginLine piece ∧ content = front ++ back ∧
    newContent = front ++ piece ++ back ∧ ¬ Inside (encode content) (encode front).length

/-- The line ends are all alike, and the line of the `.run(…)` or `.build(…)` begins outside comments
and literals. -/
def PluginInsertable (content : Text) : Prop :=
  ¬ Mixed '\n' '\r' content ∧
    ∀ i, runLine content = some i →
      ¬ Inside (encode content) (encode (linesBefore content i)).length

theorem IsPluginLine.exists_body {piece : Text} (h : IsPluginLine piece) :
    ∃ body, '\n' ∉ body ∧ 'x' ∉ piece ∧ piece = body ++ ['\n'] := by
  obtain ⟨indent, eol, hindent, heol, rfl⟩ := h
  have hn : '\n' ∉ indent := fun hmem => (hindent _ hmem).2 rfl
  have hx : 'x' ∉ indent := fun hmem => absurd (hindent _ hmem).1 (by decide)
  have hcall : '\n' ∉ pluginCall ∧ 'x' ∉ pluginCall := by decide
  rcases heol with rfl | rfl
  · refine ⟨indent ++ pluginCall, ?_, ?_, rfl⟩
    · rw [List.mem_append, not_or]
      exact ⟨hn, hcall.1⟩
    · rw [List.mem_append, List.mem_append, not_or, not_or]
      exact ⟨⟨hx, hcall.2⟩, by decide⟩
  · refine ⟨indent ++ pluginCall ++ ['\r'], ?_, ?_, by
      simp only [List.append_assoc, List.cons_append, List.nil_append]⟩
    · rw [List.mem_append, List.mem_append, not_or, not_or]
      exact ⟨⟨hn, hcall.1⟩, by decide⟩
    · rw [List.mem_append, List.mem_append, not_or, not_or]
      exact ⟨⟨hx, hcall.2⟩, by decide⟩

/-- `indent`, of a line without a line feed. -/
theorem isPluginLine_of {line eol : Text} (hline : '\n' ∉ line)
    (heol : eol = ['\n'] ∨ eol = ['\r', '\n']) :
    IsPluginLine (line.takeWhile isWhitespace ++ pluginCall ++ eol) := by
  refine ⟨_, eol, ?_, heol, rfl⟩
  intro c hc
  refine ⟨List.mem_takeWhile_imp hc, ?_⟩
  rintro rfl
  exact hline ((List.takeWhile_sublist _).subset hc)

theorem eolOf_cases (content : Text) : eolOf content = ['\n'] ∨ eolOf content = ['\r', '\n'] := by
  unfold eolOf
  split_ifs
  · exact Or.inr rfl
  · exact Or.inl rfl

theorem getD_lines {content : Text} {idx : Nat} : '\n' ∉ (lines content).getD idx [] := by
  rw [List.getD_eq_getElem?_getD]
  cases hline : (lines content)[idx]? with
  | none => exact List.not_mem_nil
  | some line =>
    obtain ⟨piece, hpiece, rfl⟩ := List.mem_map.mp (List.mem_of_getElem? hline)
    exact Lines.not_mem_stripEnd hpiece

theorem insertPlugin_eq_intercalate (content : Text) (idx : Nat) :
    insertPlugin content idx =
      (eolOf content).intercalate ((lines content).take idx ++
          (((lines content).getD idx []).takeWhile isWhitespace ++ pluginCall) ::
            (lines content).drop idx) ++
        (if content.getLast? = some '\n' then eolOf content else []) := by
  unfold insertPlugin
  split_ifs with hlast
  · rfl
  · rw [List.append_nil]

/-- Where the line ends are all alike, the line is put in and nothing else happens. -/
theorem insertPlugin_eq {content : Text} (hmixed : ¬ Mixed '\n' '\r' content) {idx : Nat}
    {rest : List Text} {piece : Text}
    (hdrop : (splitInclusive '\n' content).drop idx = piece :: rest) :
    insertPlugin content idx =
      linesBefore content idx ++
        (((lines content).getD idx []).takeWhile isWhitespace ++ pluginCall ++ eolOf content) ++
        (piece :: rest).flatten := by
  have hends : ∀ piece ∈ splitInclusive '\n' content, piece.getLast? = some '\n' →
      stripEnd '\n' '\r' piece ++ eolOf content = piece := by
    intro piece hpiece hlast
    have hend := Lines.end_of_not_mixed (by decide) hmixed hpiece hlast
    unfold eolOf contains
    simp only [decide_eq_true_eq]
    exact hend
  have hsplit := (List.take_append_drop idx (splitInclusive '\n' content)).symm
  rw [hdrop] at hsplit
  have hinsert := Lines.insert_line hsplit (List.cons_ne_nil _ _) hends
    (((lines content).getD idx []).takeWhile isWhitespace ++ pluginCall)
  rw [List.map_take, ← hdrop, List.map_drop] at hinsert
  rw [insertPlugin_eq_intercalate, ← hdrop]
  exact hinsert

theorem lone_insertPlugin {content : Text} (hmixed : Mixed '\n' '\r' content) (idx : Nat) :
    ¬ Lines.Lone '\n' '\r' (insertPlugin content idx) := by
  have heol : eolOf content = ['\r', '\n'] := if_pos (decide_eq_true hmixed.1)
  have hlines : ∀ line ∈ lines content, '\n' ∉ line := by
    intro line hline
    obtain ⟨piece, hpiece, rfl⟩ := List.mem_map.mp hline
    exact Lines.not_mem_stripEnd hpiece
  have hplugin : '\n' ∉ ((lines content).getD idx []).takeWhile isWhitespace ++ pluginCall := by
    rw [List.mem_append, not_or]
    exact ⟨fun hmem => getD_lines ((List.takeWhile_sublist _).subset hmem), by decide⟩
  rw [insertPlugin_eq_intercalate, heol]
  have hnone := @Lines.not_lone_intercalate _ '\n' '\r' (by decide)
    ((lines content).take idx ++
      (((lines content).getD idx []).takeWhile isWhitespace ++ pluginCall) ::
        (lines content).drop idx) ?_ (List.append_ne_nil_of_right_ne_nil _ (List.cons_ne_nil _ _))
    (decide (content.getLast? = some '\n'))
  · simp only [decide_eq_true_eq] at hnone
    exact hnone
  · intro line hline
    rcases List.mem_append.mp hline with hline | hline
    · exact hlines line (List.mem_of_mem_take hline)
    · rcases List.mem_cons.mp hline with rfl | hline
      · exact hplugin
      · exact hlines line (List.mem_of_mem_drop hline)

/-! ## A plugin line in the code -/

theorem keeps_append {before : List UInt8} {text text' after : Text}
    (h : Keeps before text (text' ++ after))
    (h' : Keeps ((encode text).reverse ++ before) text' after) :
    Keeps before (text ++ text') after := by
  unfold Keeps at h h' ⊢
  rw [encode_append, List.append_assoc, ← encode_append, h, encode_append, h',
    List.reverse_append, List.append_assoc, List.append_assoc]

def isPlain (c : Char) : Bool := c ≠ '/' && c ≠ '"' && c ≠ 'r' && c ≠ '\''

theorem keeps_all {text : Text} (h : ∀ c ∈ text, isPlain c = true) (before : List UInt8)
    (after : Text) : Keeps before text after := by
  induction text generalizing before with
  | nil => exact keeps_nil before after
  | cons c text ih =>
    have hc := h c List.mem_cons_self
    unfold isPlain at hc
    simp only [Bool.and_eq_true, decide_eq_true_eq] at hc
    exact @keeps_append before [c] text after
      (keeps_plain hc.1.1.1 hc.1.1.2 hc.1.2 hc.2 before _)
      (ih (fun d hd => h d (List.mem_cons_of_mem c hd)) _)

/-- What is scanned as code from a place in the text is found in the code. -/
theorem contains_of_keeps {content front text after : Text}
    (hcontent : content = front ++ (text ++ after))
    (hout : ¬ Inside (encode content) (encode front).length)
    (hkeeps : ∀ before, Keeps before text after) {pattern : Text} (hpattern : pattern <:+: text)
    (hascii : ∀ c ∈ pattern, c.toNat < 0x80) (hne : pattern ≠ []) :
    contains pattern (codeOf content) = true := by
  rw [hcontent, encode_append] at hout
  obtain ⟨out, hscan⟩ := scan_of_not_inside hout
  have hkeep := hkeeps (encode front).reverse
  unfold Keeps at hkeep
  obtain ⟨left, right, rfl⟩ := hpattern
  rw [encode_append (left ++ pattern ++ right) after, hkeep, ← encode_append, ← encode_append,
    ← hcontent, ← encode_codeOf, encode_append, encode_append] at hscan
  have hsplit : encode (codeOf content) =
      (out ++ encode left) ++ (encode pattern ++ (encode right ++
        scan ((encode (left ++ pattern ++ right)).reverse ++ (encode front).reverse) 0 false
          (encode after))) := by
    rw [hscan]
    simp only [encode_append, List.append_assoc]
  obtain ⟨codeFront, codeBack, hcode, -, -⟩ := split_encode hascii hne hsplit
  apply decide_eq_true
  exact ⟨codeFront, codeBack, by rw [hcode, List.append_assoc]⟩

theorem isPlain_of_isWhitespace {c : Char} (hc : isWhitespace c = true) : isPlain c = true := by
  have hne : ∀ d, isWhitespace d = false → c ≠ d := by
    rintro d hd rfl
    rw [hc] at hd
    cases hd
  unfold isPlain
  simp only [Bool.and_eq_true, decide_eq_true_eq]
  exact ⟨⟨⟨hne '/' (by decide), hne '"' (by decide)⟩, hne 'r' (by decide)⟩, hne '\'' (by decide)⟩

/-- A plugin line outside comments and literals is a mention of the plugin in code. -/
theorem contains_plugin {content front piece back : Text} (hpiece : IsPluginLine piece)
    (hcontent : content = front ++ (piece ++ back))
    (hout : ¬ Inside (encode content) (encode front).length) :
    contains "victauri_plugin".toList (codeOf content) = true := by
  obtain ⟨indent, eol, hindent, heol, rfl⟩ := hpiece
  have htext : indent ++ pluginCall ++ eol ++ back =
      ((indent ++ ".plugin(victau".toList) ++ (['r'] ++ "i_plugin::init())".toList)) ++
        (eol ++ back) := by
    have hcall : pluginCall =
        ".plugin(victau".toList ++ (['r'] ++ "i_plugin::init())".toList) := by decide
    rw [hcall]
    simp only [List.append_assoc]
  have hfront : ∀ c ∈ ".plugin(victau".toList, isPlain c = true := by decide
  have hback : "i_plugin::init())".toList = 'i' :: "_plugin::init())".toList := by decide
  have hname : ".plugin(victau".toList ++ (['r'] ++ "i_plugin::init())".toList) =
      ".plugin(".toList ++ ("victauri_plugin".toList ++ "::init())".toList) := by decide
  rw [htext] at hcontent
  apply contains_of_keeps hcontent hout
  · intro before
    apply keeps_append
    · apply keeps_all
      intro c hc
      rcases List.mem_append.mp hc with hc | hc
      · exact isPlain_of_isWhitespace (hindent c hc).1
      · exact hfront c hc
    · apply keeps_append
      · apply keeps_of_turn (by decide) _ (keeps_nil _ _)
        apply turn_r
        rintro ⟨-, hopens⟩
        have hfalse := @opensRaw_word 'i' (by decide)
          (encode ("_plugin::init())".toList ++ (eol ++ back)))
        rw [hback] at hopens
        exact Bool.eq_false_iff.mp hfalse hopens
      · apply keeps_all
        decide
  · refine ⟨indent ++ ".plugin(".toList, "::init())".toList, ?_⟩
    rw [List.append_assoc indent _ (['r'] ++ _), hname]
    simp only [List.append_assoc]
  · decide
  · decide

theorem pluginInserted_iff {content : Text} {idx : Nat} (hrun : runLine content = some idx)
    (hwired : contains "victauri_plugin".toList (codeOf content) = false) :
    PluginInserted content (insertPlugin content idx) ↔ PluginInsertable content := by
  obtain ⟨line, rest, hdrop, hx⟩ := exists_runLine hrun
  have hcontent : linesBefore content idx ++ (line :: rest).flatten = content := by
    unfold linesBefore
    rw [← hdrop, ← List.flatten_append, List.take_append_drop, Lines.flatten_splitInclusive]
  have hpiece := isPluginLine_of (@getD_lines content idx) (eolOf_cases content)
  obtain ⟨body, hbody, hnox, hpieceEq⟩ := hpiece.exists_body
  constructor
  · rintro ⟨front, piece, back, hpiece', hsplit, hnew, hout⟩
    obtain ⟨body', hbody', -, hpieceEq'⟩ := hpiece'.exists_body
    have hmixed : ¬ Mixed '\n' '\r' content := by
      intro hmixed
      have hlone := hmixed.2
      rw [hsplit] at hlone
      apply lone_insertPlugin hmixed idx
      rw [hnew, hpieceEq']
      exact hlone.insert (by decide) body'
    refine ⟨hmixed, ?_⟩
    intro i hi
    obtain rfl : idx = i := Option.some.inj (hrun.symm.trans hi)
    rw [insertPlugin_eq hmixed hdrop, hpieceEq, hpieceEq'] at hnew
    -- another reading has its line in the code before the place, or is the run line itself
    rcases Lines.insert_unique hbody hbody' (hcontent.trans hsplit) hnew with
      hsame | ⟨more, hmore⟩ | ⟨more, hmore⟩
    · rw [hsame]
      exact hout
    · have hmention : content = front ++ (piece ++ (more ++ (line :: rest).flatten)) := by
        rw [← hcontent, hmore, hpieceEq']
        simp only [List.append_assoc]
      rw [contains_plugin hpiece' hmention hout] at hwired
      cases hwired
    · exfalso
      apply hnox
      rw [List.flatten_cons] at hmore
      rcases List.append_eq_append_iff.mp hmore with ⟨tail, htail, -⟩ | ⟨tail, htail, -⟩
      · rw [hpieceEq, htail]
        exact List.mem_append_left _ hx
      · have hline : line ∈ splitInclusive '\n' content := by
          apply List.mem_of_mem_drop
          rw [hdrop]
          exact List.mem_cons_self
        rw [htail] at hline hx
        rw [Lines.eq_of_mem_splitInclusive hline, List.append_nil] at hx
        rw [hpieceEq]
        exact hx
  · rintro ⟨hmixed, hrunOut⟩
    refine ⟨linesBefore content idx, _, (line :: rest).flatten, hpiece, hcontent.symm, ?_,
      hrunOut idx hrun⟩
    exact insertPlugin_eq hmixed hdrop

/-! ## The wrapper -/

/-- `optional_wiring_snippet(feature).replace('\n', eol)`. -/
def snippetWith (eol feature : Text) : Text :=
  (optionalWiringSnippet feature).flatMap fun c => if c = '\n' then eol else [c]

/-- The new text is the text with the wrapper put around the builder and the snippet put behind the
text, on a new line, all of it outside comments and literals. -/
def WrapperInserted (content feature newContent : Text) : Prop :=
  ∃ front back ending eol, (eol = ['\n'] ∨ eol = ['\r', '\n']) ∧ (ending = [] ∨ ending = eol) ∧
    content = front ++ builder ++ back ∧
    newContent = front ++ withVictauri ++ builder ++ [')'] ++ back ++
      (ending ++ snippetWith eol feature) ∧
    ¬ Inside (encode content) (encode front).length ∧
    ¬ Inside (encode content) (encode (front ++ builder)).length ∧
    ¬ EndsOpen (encode content)

theorem matchIndices_sound {pattern : List UInt8} {index : Nat} {bs : List UInt8} {skip start : Nat}
    (h : index ∈ matchIndices pattern skip start bs) :
    ∃ front back, bs = front ++ (pattern ++ back) ∧ index = start + front.length := by
  induction bs generalizing skip start with
  | nil => exact absurd h List.not_mem_nil
  | cons b rest ih =>
    have hlater : ∀ {skip}, index ∈ matchIndices pattern skip (start + 1) rest →
        ∃ front back, b :: rest = front ++ (pattern ++ back) ∧ index = start + front.length := by
      intro skip hmem
      obtain ⟨front, back, rfl, hindex⟩ := ih hmem
      refine ⟨b :: front, back, rfl, ?_⟩
      rw [hindex, List.length_cons]
      omega
    cases skip with
    | succ skip => exact hlater h
    | zero =>
      rw [matchIndices] at h
      split_ifs at h with hpattern
      · rcases List.mem_cons.mp h with rfl | h
        · obtain ⟨back, hback⟩ := hpattern
          exact ⟨[], back, hback.symm, rfl⟩
        · exact hlater h
      · exact hlater h

theorem cutAt_append (front back : Text) :
    cutAt (encode front).length (front ++ back) = (front, back) := by
  induction front with
  | nil =>
    cases back with
    | nil => rfl
    | cons c back =>
      have hpos := Char.utf8Size_pos c
      rw [List.nil_append, encode_nil, List.length_nil, cutAt, if_neg (by omega)]
  | cons c front ih =>
    rw [List.cons_append, encode_cons, List.length_append, String.length_utf8EncodeChar, cutAt,
      if_pos (Nat.le_add_right _ _), Nat.add_sub_cancel_left, ih]

/-- Bytes of the code that are no blanks are bytes of the text in the same place. -/
theorem split_of_blanked {bs front pattern back : List UInt8}
    (hpattern : ∀ b ∈ pattern, b ≠ ' '.toUInt8)
    (h : List.Forall₂ Blanked bs (front ++ (pattern ++ back))) :
    ∃ front' back', bs = front' ++ (pattern ++ back') ∧ front'.length = front.length := by
  induction front generalizing bs with
  | nil =>
    suffices hsuffix : ∃ back', bs = pattern ++ back' by
      obtain ⟨back', hback⟩ := hsuffix
      exact ⟨[], back', hback, rfl⟩
    rw [List.nil_append] at h
    induction pattern generalizing bs with
    | nil => exact ⟨bs, rfl⟩
    | cons b pattern ih =>
      cases h with
      | @cons c _ bs _ hrel hrest =>
        obtain ⟨back', rfl⟩ := ih (fun d hd => hpattern d (List.mem_cons_of_mem b hd)) hrest
        exact ⟨back', by rw [hrel.eq_of_ne_blank (hpattern b List.mem_cons_self)]; rfl⟩
  | cons d front ih =>
    cases h with
    | @cons c _ bs _ hrel hrest =>
      obtain ⟨front', back', rfl, hlength⟩ := ih hrest
      exact ⟨c :: front', back', rfl, congrArg (· + 1) hlength⟩

theorem not_inside_of_code {front back : List UInt8} {c d : UInt8} {codeFront codeBack : List UInt8}
    (hcode : codeBytes (front ++ c :: back) = codeFront ++ d :: codeBack)
    (hlength : front.length = codeFront.length) (hd : d ≠ ' '.toUInt8) (hblank : blank d ≠ d) :
    ¬ Inside (front ++ c :: back) front.length ∧
      ¬ Inside (front ++ c :: back) (front.length + 1) := by
  have hget : (codeBytes (front ++ c :: back))[front.length]? = some d := by
    rw [hcode, hlength, List.getElem?_append_right (Nat.le_refl _), Nat.sub_self]
    rfl
  have hne : (codeBytes (front ++ c :: back))[front.length]? ≠ some (blank c) := by
    rw [hget]
    intro heq
    have hdc := Option.some.inj heq
    rcases blank_eq c with hsame | hspace
    · apply hblank
      rw [hdc, hsame, hsame]
    · exact hd (hdc.trans hspace)
  exact ⟨fun h => hne (blank_of_inside h), fun h => hne (blank_of_inside_behind h)⟩

theorem encode_builder : encode builder =
    't'.toUInt8 :: (encode "auri::Builder::default(".toList ++ [')'.toUInt8]) := by
  have htext : builder = 't' :: ("auri::Builder::default(".toList ++ [')']) := by decide
  rw [htext, encode_cons, encode_append, encode_singleton (by decide), encodeChar_ascii (by decide)]
  rfl

theorem length_encode_builder : (encode builder).length = builder.length := by
  rw [encode_of_ascii (by decide), List.length_map]

/-- Where the builder stands in the code. -/
theorem exists_builder {content feature newContent : Text}
    (h : patchOptionalWiring content feature = some newContent) :
    ∃ front back codeFront codeBack, content = front ++ builder ++ back ∧
      codeBytes (encode content) = codeFront ++ (encode builder ++ codeBack) ∧
      (encode front).length = codeFront.length ∧
      newContent = (let out := front ++ withVictauri ++ builder ++ [')'] ++ back
        (if out.getLast? = some '\n' then out else out ++ eolOf content) ++
          snippetWith (eolOf content) feature) := by
  unfold patchOptionalWiring at h
  split at h
  case h_1 index hindices =>
    have hmem : index ∈ matchIndices (encode builder) 0 0 (encode (codeOf content)) := by
      rw [hindices]
      exact List.mem_singleton_self _
    obtain ⟨codeFront, codeBack, hcode, hindex⟩ := matchIndices_sound hmem
    rw [encode_codeOf] at hcode
    have hrel : List.Forall₂ Blanked (encode content)
        (codeFront ++ (encode builder ++ codeBack)) := by
      rw [← hcode]
      exact forall₂_scan [] 0 false _
    have hspace : ∀ b ∈ encode builder, b ≠ ' '.toUInt8 := by
      rintro b hb rfl
      exact absurd ((mem_encode (by decide)).mp hb) (by decide)
    obtain ⟨bytesFront, bytesBack, hbytes, hlength⟩ := split_of_blanked hspace hrel
    obtain ⟨front, back, hcontent, rfl, -⟩ := split_encode (by decide) (by decide) hbytes
    rw [Nat.zero_add, ← hlength] at hindex
    have hend : index + builder.length = (encode (front ++ builder)).length := by
      rw [encode_append, List.length_append, hindex, length_encode_builder]
    have hfront := cutAt_append front (builder ++ back)
    have hback := cutAt_append (front ++ builder) back
    rw [List.append_assoc, ← hcontent] at hback
    rw [← hcontent] at hfront
    refine ⟨front, back, codeFront, codeBack, ?_, hcode, hlength, ?_⟩
    · rw [hcontent, List.append_assoc]
    · rw [hend, hindex, hfront, hback] at h
      exact (Option.some.inj h).symm
  case h_2 => cases h

theorem wrapperInserted_iff {content feature newContent : Text}
    (h : patchOptionalWiring content feature = some newContent) :
    WrapperInserted content feature newContent ↔ ¬ EndsOpen (encode content) := by
  constructor
  · rintro ⟨front, back, ending, eol, -, -, -, -, -, -, hopen⟩
    exact hopen
  · intro hopen
    obtain ⟨front, back, codeFront, codeBack, hcontent, hcode, hlength, hnew⟩ := exists_builder h
    have hbytes : encode content = encode front ++ (encode builder ++ encode back) := by
      rw [hcontent, encode_append, encode_append, List.append_assoc]
    rw [encode_builder, List.cons_append, List.append_assoc, List.singleton_append] at hbytes hcode
    have hfirst := not_inside_of_code (hbytes ▸ hcode) hlength (by decide) (by decide)
    have hlast := @not_inside_of_code
      (encode front ++ 't'.toUInt8 :: encode "auri::Builder::default(".toList) (encode back)
      ')'.toUInt8 ')'.toUInt8
      (codeFront ++ 't'.toUInt8 :: encode "auri::Builder::default(".toList) codeBack
    rw [List.append_assoc, List.append_assoc, List.cons_append, List.cons_append, ← hbytes] at hlast
    have hbehind := hlast hcode (by rw [List.length_append, List.length_append, hlength])
      (by decide) (by decide)
    have hend : (encode (front ++ builder)).length =
        (encode front ++ 't'.toUInt8 :: encode "auri::Builder::default(".toList).length + 1 := by
      rw [encode_append, encode_builder, List.length_append, List.length_append, List.length_cons,
        List.length_cons, List.length_append]
      rfl
    rw [← hbytes] at hfirst
    refine ⟨front, back, if (front ++ withVictauri ++ builder ++ [')'] ++ back).getLast? = some '\n'
      then [] else eolOf content, eolOf content, eolOf_cases content, ?_, hcontent, ?_, hfirst.1, ?_,
      hopen⟩
    · split_ifs
      · exact Or.inl rfl
      · exact Or.inr rfl
    · rw [hnew]
      dsimp only
      by_cases hnewline : (front ++ withVictauri ++ builder ++ [')'] ++ back).getLast? = some '\n'
      · rw [if_pos hnewline, if_pos hnewline, List.nil_append]
      · rw [if_neg hnewline, if_neg hnewline, ← List.append_assoc]
    · rw [hend]
      exact hbehind.2

/-! ## The file written -/

/-- What writing a file should do: put in the plugin line, or the wrapper and the snippet. -/
def Inserted (feature : Option Text) (content newContent : Text) : Prop :=
  match feature with
  | none => PluginInserted content newContent
  | some feature => WrapperInserted content feature newContent

/-- When it does. -/
def Insertable (feature : Option Text) (content : Text) : Prop :=
  match feature with
  | none => PluginInsertable content
  | some _ => ¬ EndsOpen (encode content)

theorem eq_of_writeBack {filename file' : Filename} {file : SourceFile} {newContent text : Text}
    (h : writeBack filename file text = .written file' newContent) :
    file' = filename ∧ newContent = text := by
  unfold writeBack at h
  split_ifs at h
  obtain ⟨rfl, rfl⟩ := Outcome.written.inj h
  exact ⟨rfl, rfl⟩

theorem patchFile_written {feature : Option Text} {filename file' : Filename} {file : SourceFile}
    {newContent : Text} (h : patchFile feature filename file = some (.written file' newContent)) :
    file' = filename ∧ ∃ content, file.content = some content ∧
      (Inserted feature content newContent ↔ Insertable feature content) := by
  unfold patchFile at h
  cases hcontent : file.content with
  | none =>
    rw [hcontent] at h
    cases h
  | some content =>
    simp only [hcontent] at h
    by_cases hwired : contains "victauri_plugin".toList (codeOf content) = true
    · rw [if_pos hwired] at h
      cases h
    rw [if_neg hwired] at h
    by_cases hbuilder : (!contains "tauri::Builder".toList (codeOf content)) = true
    · rw [if_pos hbuilder] at h
      cases h
    rw [if_neg hbuilder] at h
    cases feature with
    | some feature =>
      dsimp only at h
      cases hpatch : patchOptionalWiring content feature with
      | none =>
        rw [hpatch] at h
        cases h
      | some text =>
        rw [hpatch] at h
        obtain ⟨rfl, rfl⟩ := eq_of_writeBack (Option.some.inj h)
        exact ⟨rfl, content, rfl, wrapperInserted_iff hpatch⟩
    | none =>
      dsimp only at h
      cases hidx : insertIdx (lines (codeOf content)) with
      | none =>
        rw [hidx] at h
        cases h
      | some idx =>
        rw [hidx] at h
        obtain ⟨rfl, rfl⟩ := eq_of_writeBack (Option.some.inj h)
        exact ⟨rfl, content, rfl, pluginInserted_iff (runLine_of_insertIdx hidx)
          (Bool.eq_false_iff.mpr hwired)⟩

/-- Without a `lib.rs` the outcome is that of `main.rs`. -/
theorem tryPatchTauriBuilder_mainRs {srcDir : Filename → Option SourceFile}
    {feature : Option Text} {file : SourceFile} {outcome : Outcome} (hlib : srcDir .libRs = none)
    (hmain : srcDir .mainRs = some file) (h : patchFile feature .mainRs file = some outcome) :
    tryPatchTauriBuilder srcDir feature = outcome := by
  unfold tryPatchTauriBuilder
  simp only [List.findSome?_cons, hlib, hmain, h, Option.getD_some]

theorem codeOf_eq {content code : Text} (h : codeBytes (encode content) = encode code) :
    codeOf content = code := by
  unfold codeOf rustCodeOnly
  rw [bytes_ofList, h, fromUTF8?_encode, Option.getD_some, String.toList_ofList]

/-- A builder whose first line ends with a carriage return, and no other. -/
def mixedMain : Text :=
  "fn main() \x7b\r\n".toList ++ "  tauri::Builder::default()\n".toList ++
    "  .run(tauri::generate_context!());\n\x7d\n".toList

def mixedDir : Filename → Option SourceFile
  | .libRs => none
  | .mainRs => some ⟨some mixedMain, false⟩

set_option maxRecDepth 8000 in
theorem codeOf_mixedMain : codeOf mixedMain = mixedMain :=
  codeOf_eq (by decide)

set_option maxRecDepth 8000 in
theorem insertIdx_mixedMain : insertIdx (lines (codeOf mixedMain)) = some 2 := by
  rw [codeOf_mixedMain]
  decide

set_option maxRecDepth 8000 in
theorem wired_mixedMain : contains "victauri_plugin".toList (codeOf mixedMain) = false := by
  rw [codeOf_mixedMain]
  decide

set_option maxRecDepth 8000 in
theorem tryPatchTauriBuilder_mixedDir :
    tryPatchTauriBuilder mixedDir none = .written .mainRs (insertPlugin mixedMain 2) := by
  have hbuilder : contains "tauri::Builder".toList (codeOf mixedMain) = true := by
    rw [codeOf_mixedMain]
    decide
  have hpatch : patchFile none .mainRs ⟨some mixedMain, false⟩ =
      some (.written .mainRs (insertPlugin mixedMain 2)) := by
    unfold patchFile
    simp only [wired_mixedMain, hbuilder, insertIdx_mixedMain]
    rfl
  exact tryPatchTauriBuilder_mainRs rfl rfl hpatch

set_option maxRecDepth 8000 in
theorem patchOptionalWiring_builder (feature : Text) :
    ∃ newContent, patchOptionalWiring builder feature = some newContent := by
  have hcode : codeOf builder = builder := codeOf_eq (by decide)
  have hindices : matchIndices (encode builder) 0 0 (encode builder) = [0] := by decide
  unfold patchOptionalWiring
  rw [hcode, hindices]
  exact ⟨_, rfl⟩

/-- A file is written as its text with only the pieces put in, outside comments and literals: for the
plugin line exactly if the line ends are all alike and the run line does not begin inside a comment
or literal, for the wrapper whatever the line ends, unless a comment or literal is open at the end. -/
theorem tryPatchTauriBuilder_inserts_iff (content name : Text)
    (srcDir : Filename → Option SourceFile) (feature : Option Text) :
    (∀ newContent, patchOptionalWiring content name = some newContent →
      (WrapperInserted content name newContent ↔ ¬ EndsOpen (encode content))) ∧
    ∀ filename newContent, tryPatchTauriBuilder srcDir feature = .written filename newContent →
      ∃ file content, srcDir filename = some file ∧ file.content = some content ∧
        (Inserted feature content newContent ↔ Insertable feature content) := by
  constructor
  · exact fun _ h => wrapperInserted_iff h
  · intro filename newContent h
    obtain ⟨patch, hpatch, h⟩ : ∃ patch : Filename → Option Outcome, (∀ filename,
        patch filename = (srcDir filename).bind (patchFile feature filename)) ∧
        ([.libRs, .mainRs].findSome? patch).getD .notPatched = .written filename newContent := by
      refine ⟨_, fun filename => ?_, h⟩
      cases srcDir filename <;> rfl
    cases hfound : [Filename.libRs, Filename.mainRs].findSome? patch with
    | none =>
      rw [hfound] at h
      cases h
    | some outcome =>
      rw [hfound] at h
      obtain rfl : outcome = .written filename newContent := h
      obtain ⟨filename', -, hfile⟩ := List.exists_of_findSome?_eq_some hfound
      rw [hpatch] at hfile
      cases hsrc : srcDir filename' with
      | none =>
        rw [hsrc] at hfile
        cases hfile
      | some file =>
        rw [hsrc] at hfile
        obtain ⟨rfl, content, hcontent, hiff⟩ := patchFile_written hfile
        exact ⟨file, content, hsrc, hcontent, hiff⟩

theorem tryPatchTauriBuilder_inserts_main :
    (∃ newContent, patchOptionalWiring builder "victauri".toList = some newContent ∧
      (WrapperInserted builder "victauri".toList newContent ↔ ¬ EndsOpen (encode builder))) ∧
    ∃ file content, mixedDir .mainRs = some file ∧ file.content = some content ∧
      (Inserted none content (insertPlugin mixedMain 2) ↔ Insertable none content) := by
  constructor
  · obtain ⟨newContent, hnew⟩ := patchOptionalWiring_builder "victauri".toList
    exact ⟨newContent, hnew,
      (tryPatchTauriBuilder_inserts_iff builder "victauri".toList mixedDir none).1 _ hnew⟩
  · exact (tryPatchTauriBuilder_inserts_iff builder "victauri".toList mixedDir none).2 .mainRs _
      tryPatchTauriBuilder_mixedDir

set_option maxRecDepth 8000 in
/-- The two line feeds that stood alone get a carriage return each. -/
theorem tryPatchTauriBuilder_rewrites_line_ends :
    tryPatchTauriBuilder mixedDir none = .written .mainRs (insertPlugin mixedMain 2) ∧
      ¬ Inserted none mixedMain (insertPlugin mixedMain 2) := by
  constructor
  · exact tryPatchTauriBuilder_mixedDir
  · intro hinserted
    have hinsertable := (pluginInserted_iff (runLine_of_insertIdx insertIdx_mixedMain)
      wired_mixedMain).mp hinserted
    apply hinsertable.1
    constructor
    · exact ⟨"fn main() \x7b".toList, "  tauri::Builder::default()\n".toList ++
        "  .run(tauri::generate_context!());\n\x7d\n".toList, rfl⟩
    · refine ⟨"fn main() \x7b\r\n  tauri::Builder::default()".toList,
        "  .run(tauri::generate_context!());\n\x7d\n".toList, by decide, by decide⟩

end Victauri.Cli.Patch
