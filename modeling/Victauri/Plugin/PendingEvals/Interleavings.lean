import Victauri.Plugin.PendingEvals

/-!
# Pending evals under every interleaving

What holds after any run of the steps: the ceilings of the pending map, who may receive what, and
that nothing is left of evals whose slots are gone.
-/

namespace Victauri.Plugin.PendingEvals

open Library Mcp

/-! ## Ids -/

theorem getFrom_append (text rest : List Char) (hascii : ∀ c ∈ text, c.utf8Size = 1) :
    getFrom text.length (text ++ rest) = some rest := by
  induction text with
  | nil =>
      cases rest with
      | nil => rfl
      | cons c rest => rfl
  | cons c text ih =>
      have hc : c.utf8Size = 1 := hascii c List.mem_cons_self
      rw [List.length_cons, List.cons_append, getFrom, hc, if_pos (by omega)]
      exact ih fun d hd => hascii d (List.mem_cons_of_mem c hd)

theorem stripPrefix_append_self (start rest : List Char) :
    stripPrefix start (start ++ rest) = some rest := by
  simp [stripPrefix]

namespace Uuid

variable (uuid : Uuid)

theorem utf8Size_eq_one {c : Char} (hc : c ∈ uuid.text) : c.utf8Size = 1 := by
  rcases uuid.isHex c hc with hdigit | hletter
  · have hle : c.val ≤ 0x7f := by
      simp only [Char.isDigit, Bool.and_eq_true, decide_eq_true_eq] at hdigit
      exact UInt32.le_trans hdigit.2 (by decide)
    exact if_pos hle
  · simp only [List.mem_cons, List.not_mem_nil, or_false] at hletter
    rcases hletter with rfl | rfl | rfl | rfl | rfl | rfl | rfl <;> rfl

theorem not_pageEvalPrefix : pageEvalPrefix.isPrefixOf uuid.text = false := by
  rw [Bool.eq_false_iff]
  intro hstarts
  have hmem : 'p' ∈ uuid.text := (List.isPrefixOf_iff_prefix.mp hstarts).subset (by decide)
  rcases uuid.isHex 'p' hmem with h | h <;> exact absurd h (by decide)

end Uuid

namespace Origin

theorem isPrefixOf_id (origin : Origin) (uuid : Uuid) :
    pageEvalPrefix.isPrefixOf (origin.id uuid) = origin.isPage := by
  cases origin with
  | agent => exact uuid.not_pageEvalPrefix
  | page label =>
      rw [Origin.id, List.append_assoc]
      exact List.isPrefixOf_iff_prefix.mpr (List.prefix_append _ _)

/-- Any label is read back from the id. -/
theorem pageEvalWindow_id (label : List Char) (uuid : Uuid) :
    pageEvalWindow ((Origin.page label).id uuid) = some label := by
  have hrest := getFrom_append uuid.text (':' :: label) fun c => uuid.utf8Size_eq_one
  rw [uuid.length_eq] at hrest
  rw [pageEvalWindow, Origin.id, List.append_assoc, stripPrefix_append_self, Option.bind_some,
    hrest, Option.bind_some]
  exact stripPrefix_append_self [':'] label

theorem id_inj {origin other : Origin} {uuid uuid' : Uuid}
    (h : origin.id uuid = other.id uuid') : uuid.text = uuid'.text := by
  have hpage := congrArg (fun id => pageEvalPrefix.isPrefixOf id) h
  rw [isPrefixOf_id, isPrefixOf_id] at hpage
  cases origin with
  | agent =>
      cases other with
      | agent => exact h
      | page label => exact absurd hpage Bool.false_ne_true
  | page label =>
      cases other with
      | agent => exact absurd hpage.symm Bool.false_ne_true
      | page label' =>
          rw [Origin.id, Origin.id, List.append_assoc, List.append_assoc] at h
          exact (List.append_inj (List.append_cancel_left h)
            (uuid.length_eq.trans uuid'.length_eq.symm)).1

end Origin

/-! ## Ceilings -/

/-- The key is that of an eval from window `label`. -/
def isWindowKey (label key : List Char) : Bool :=
  pageEvalPrefix.isPrefixOf key && decide (pageEvalWindow key = some label)

structure Bounded (keys : List (List Char)) : Prop where
  total : keys.length ≤ maxPendingEvals
  page : keys.countP pageEvalPrefix.isPrefixOf ≤ maxPagePendingEvals
  window : ∀ label, keys.countP (isWindowKey label) ≤ maxPagePendingEvalsPerWindow

theorem Bounded.sublist {keys rest : List (List Char)} (h : Bounded keys)
    (hsub : rest.Sublist keys) : Bounded rest :=
  ⟨Nat.le_trans hsub.length_le h.total, Nat.le_trans hsub.countP_le h.page,
    fun label => Nat.le_trans hsub.countP_le (h.window label)⟩

/-- A new entry, which the ceilings it counts for still allow. -/
theorem Bounded.cons {keys rest : List (List Char)} {origin : Origin} {uuid : Uuid}
    (h : Bounded keys) (hsub : rest.Sublist keys) (htotal : keys.length < maxPendingEvals)
    (hpage : origin.isPage = true → keys.countP pageEvalPrefix.isPrefixOf < maxPagePendingEvals)
    (hwindow : ∀ label, origin = .page label →
      keys.countP (isWindowKey label) < maxPagePendingEvalsPerWindow) :
    Bounded (origin.id uuid :: rest) := by
  have hrest := h.sublist hsub
  refine ⟨?_, ?_, fun label => ?_⟩
  · have hle := hsub.length_le
    rw [List.length_cons]
    omega
  · have hle := hsub.countP_le (p := pageEvalPrefix.isPrefixOf)
    rw [List.countP_cons, origin.isPrefixOf_id]
    cases hisPage : origin.isPage with
    | true =>
        have hlt := hpage hisPage
        rw [if_pos rfl]
        omega
    | false => exact hrest.page
  · have hle := hsub.countP_le (p := isWindowKey label)
    rw [List.countP_cons]
    by_cases hkey : isWindowKey label (origin.id uuid) = true
    · have horigin : origin = .page label := by
        obtain ⟨hstarts, hlabel⟩ := Bool.and_eq_true_iff.mp hkey
        rw [origin.isPrefixOf_id] at hstarts
        cases origin with
        | agent => exact absurd hstarts (by decide)
        | page other =>
            have hsame := of_decide_eq_true hlabel
            rw [Origin.pageEvalWindow_id] at hsame
            rw [Option.some.inj hsame]
      have hlt := hwindow label horigin
      rw [if_pos hkey]
      omega
    · rw [if_neg hkey]
      exact hrest.window label

/-! ## The invariant -/

/-- Every entry of the maps belongs to an eval that will remove it, and an eval with an entry has
received nothing. -/
structure Inv (s : State) : Prop where
  unique : ∀ i j e f, s.evals i = some e → s.evals j = some f → e.uuid.text = f.uuid.text → i = j
  beyond : ∀ i e, s.evals i = some e → i < s.count
  once : ∀ i e, s.evals i = some e → e.received.length ≤ 1
  pendingOwn : ∀ key i, s.pending.lookup key = some i →
    ∃ e, s.evals i = some e ∧ e.id = key ∧ e.phase ≠ .removed ∧ e.received = []
  targetOwn : ∀ key target, s.targets.lookup key = some target →
    ∃ i e, s.evals i = some e ∧ e.id = key ∧ e.phase = .live
  bounded : Bounded s.pending.keys

theorem inv_initial : Inv initial where
  unique := fun i j e f he => absurd he (Option.some_ne_none e).symm
  beyond := fun i e he => absurd he (Option.some_ne_none e).symm
  once := fun i e he => absurd he (Option.some_ne_none e).symm
  pendingOwn := fun key i h => absurd h (by simp [initial])
  targetOwn := fun key target h => absurd h (by simp [initial])
  bounded := ⟨Nat.zero_le _, Nat.zero_le _, fun _ => Nat.zero_le _⟩

section Steps

variable {s : State} {i : Nat} {e : Eval}

theorem modify_some {f : Eval → Eval} {j : Nat} {e' : Eval}
    (h : (s.modify i f).evals j = some e') :
    ∃ e, s.evals j = some e ∧ (j = i ∧ e' = f e ∨ j ≠ i ∧ e' = e) := by
  by_cases hj : j = i
  · subst hj
    change Function.update s.evals j _ j = some e' at h
    rw [Function.update_self] at h
    obtain ⟨e, he, hf⟩ := Option.map_eq_some_iff.mp h
    exact ⟨e, he, Or.inl ⟨rfl, hf.symm⟩⟩
  · change Function.update s.evals i _ j = some e' at h
    rw [Function.update_of_ne hj] at h
    exact ⟨e', h, Or.inr ⟨hj, rfl⟩⟩

theorem modify_evals_of_ne {f : Eval → Eval} {j : Nat} (hj : j ≠ i) :
    (s.modify i f).evals j = s.evals j :=
  Function.update_of_ne hj _ _

theorem modify_evals_self {f : Eval → Eval} (he : s.evals i = some e) :
    (s.modify i f).evals i = some (f e) := by
  change Function.update s.evals i _ i = some (f e)
  rw [Function.update_self, he]
  rfl

theorem Inv.target_none (h : Inv s) (he : s.evals i = some e) (hphase : e.phase ≠ .live) :
    s.targets.lookup e.id = none := by
  cases htarget : s.targets.lookup e.id with
  | none => rfl
  | some target =>
      obtain ⟨j, f, hf, hid, hlive⟩ := h.targetOwn e.id target htarget
      have hij := h.unique i j e f he hf (Origin.id_inj hid.symm)
      subst hij
      rw [he] at hf
      rw [Option.some.inj hf] at hphase
      exact absurd hlive hphase

theorem Inv.setPhase (h : Inv s) {phase : Phase}
    (hpending : phase = .removed → ∀ key, s.pending.lookup key ≠ some i)
    (htarget : phase ≠ .live → ∀ e, s.evals i = some e → s.targets.lookup e.id = none) :
    Inv (s.setPhase i phase) where
  unique := by
    intro a b e' f' he' hf' huuid
    obtain ⟨e, he, hcase⟩ := modify_some he'
    obtain ⟨f, hf, hcase'⟩ := modify_some hf'
    refine h.unique a b e f he hf ?_
    rcases hcase with ⟨-, rfl⟩ | ⟨-, rfl⟩ <;> rcases hcase' with ⟨-, rfl⟩ | ⟨-, rfl⟩ <;>
      exact huuid
  beyond := by
    intro a e' he'
    obtain ⟨e, he, -⟩ := modify_some he'
    exact h.beyond a e he
  once := by
    intro a e' he'
    obtain ⟨e, he, hcase⟩ := modify_some he'
    have hle := h.once a e he
    rcases hcase with ⟨-, rfl⟩ | ⟨-, rfl⟩ <;> exact hle
  pendingOwn := by
    intro key a hlookup
    obtain ⟨e, he, hid, hphase, hnone⟩ := h.pendingOwn key a hlookup
    by_cases ha : a = i
    · subst ha
      refine ⟨_, modify_evals_self he, hid, ?_, hnone⟩
      exact fun hremoved => hpending hremoved key hlookup
    · exact ⟨e, (modify_evals_of_ne ha).trans he, hid, hphase, hnone⟩
  targetOwn := by
    intro key target hlookup
    obtain ⟨a, e, he, hid, hlive⟩ := h.targetOwn key target hlookup
    by_cases ha : a = i
    · subst ha
      refine ⟨a, _, modify_evals_self he, hid, ?_⟩
      by_contra hphase
      have hnone := htarget hphase e he
      rw [hid] at hnone
      exact absurd (hlookup.symm.trans hnone) (Option.some_ne_none target)
    · exact ⟨a, e, (modify_evals_of_ne ha).trans he, hid, hlive⟩
  bounded := h.bounded

theorem Inv.bindWindow (h : Inv s) (he : s.evals i = some e) (hlive : e.phase = .live)
    (label : Option (List Char)) : Inv (s.bindWindow e label) where
  unique := h.unique
  beyond := h.beyond
  once := h.once
  pendingOwn := h.pendingOwn
  targetOwn := by
    intro key target hlookup
    by_cases hkey : key = e.id
    · exact ⟨i, e, he, hkey.symm, hlive⟩
    · refine h.targetOwn key target ?_
      rw [← hlookup]
      exact (AList.lookup_insert_ne hkey).symm
  bounded := h.bounded

/-- What is looked up after a removal was there before, under another key. -/
theorem lookup_of_erase {β : Type} {map : AList fun _ : List Char => β} {key other : List Char}
    {b : β} (h : (map.erase key).lookup other = some b) : other ≠ key ∧ map.lookup other = some b := by
  by_cases hkey : other = key
  · subst hkey
    rw [AList.lookup_erase] at h
    exact absurd h (Option.some_ne_none b).symm
  · exact ⟨hkey, (AList.lookup_erase_ne hkey).symm.trans h⟩

theorem Inv.eraseTarget (h : Inv s) (key : List Char) :
    Inv { s with targets := s.targets.erase key } where
  unique := h.unique
  beyond := h.beyond
  once := h.once
  pendingOwn := h.pendingOwn
  targetOwn := by
    intro other target hlookup
    exact h.targetOwn other target (lookup_of_erase hlookup).2
  bounded := h.bounded

theorem Inv.erasePending (h : Inv s) (key : List Char) :
    Inv { s with pending := s.pending.erase key } where
  unique := h.unique
  beyond := h.beyond
  once := h.once
  pendingOwn := fun other i hlookup => h.pendingOwn other i (lookup_of_erase hlookup).2
  targetOwn := h.targetOwn
  bounded := by
    refine h.bounded.sublist ?_
    rw [AList.keys_erase]
    exact @List.erase_sublist _ instBEqOfDecidableEq _ _

/-! ## New evals and results -/

theorem insert_evals {uuid : Uuid} {origin : Origin} {phase : Phase} {j : Nat} {f : Eval}
    (h : (s.insert uuid origin phase).evals j = some f) :
    j = s.count ∧ f = ⟨uuid, origin, phase, []⟩ ∨ j ≠ s.count ∧ s.evals j = some f := by
  change Function.update s.evals s.count _ j = some f at h
  by_cases hj : j = s.count
  · subst hj
    rw [Function.update_self] at h
    exact Or.inl ⟨rfl, (Option.some.inj h).symm⟩
  · rw [Function.update_of_ne hj] at h
    exact Or.inr ⟨hj, h⟩

theorem insert_evals_of_some {uuid : Uuid} {origin : Origin} {phase : Phase} (h : Inv s)
    (he : s.evals i = some e) : (s.insert uuid origin phase).evals i = some e :=
  (Function.update_of_ne (Nat.ne_of_lt (h.beyond i e he)) _ _).trans he

theorem Inv.insert {uuid : Uuid} {origin : Origin} {phase : Phase} (h : Inv s)
    (hfresh : Fresh s uuid) (hphase : phase ≠ .removed)
    (htotal : s.pending.keys.length < maxPendingEvals)
    (hpage : origin.isPage = true →
      s.pending.keys.countP pageEvalPrefix.isPrefixOf < maxPagePendingEvals)
    (hwindow : ∀ label, origin = .page label →
      s.pending.keys.countP (isWindowKey label) < maxPagePendingEvalsPerWindow) :
    Inv (s.insert uuid origin phase) where
  unique := by
    intro a b e f he hf huuid
    rcases insert_evals he with ⟨rfl, rfl⟩ | ⟨ha, he⟩ <;>
      rcases insert_evals hf with ⟨rfl, rfl⟩ | ⟨hb, hf⟩
    · rfl
    · exact absurd huuid.symm (hfresh b f hf)
    · exact absurd huuid (hfresh a e he)
    · exact h.unique a b e f he hf huuid
  beyond := by
    intro a e he
    rcases insert_evals he with ⟨rfl, -⟩ | ⟨-, he⟩
    · exact Nat.lt_succ_self _
    · exact Nat.lt_succ_of_lt (h.beyond a e he)
  once := by
    intro a e he
    rcases insert_evals he with ⟨-, rfl⟩ | ⟨-, he⟩
    · exact Nat.zero_le 1
    · exact h.once a e he
  pendingOwn := by
    intro key a hlookup
    by_cases hkey : key = origin.id uuid
    · subst hkey
      have hnew := (AList.lookup_insert s.pending).symm.trans hlookup
      rw [← Option.some.inj hnew]
      exact ⟨_, Function.update_self _ _ _, rfl, hphase, rfl⟩
    · have hold := (AList.lookup_insert_ne hkey).symm.trans hlookup
      obtain ⟨e, he, hid, hstill, hnone⟩ := h.pendingOwn key a hold
      exact ⟨e, insert_evals_of_some h he, hid, hstill, hnone⟩
  targetOwn := by
    intro key target hlookup
    obtain ⟨a, e, he, hid, hlive⟩ := h.targetOwn key target hlookup
    exact ⟨a, e, insert_evals_of_some h he, hid, hlive⟩
  bounded := by
    change Bounded (s.pending.insert (origin.id uuid) s.count).keys
    rw [AList.keys_insert]
    exact h.bounded.cons (@List.erase_sublist _ instBEqOfDecidableEq _ _) htotal hpage hwindow

theorem Inv.deliver (h : Inv s) (id : List Char) (response : Response) :
    Inv (s.deliverEvalResult id response) := by
  unfold State.deliverEvalResult
  cases hlookup : s.pending.lookup id with
  | none => exact h
  | some i =>
      obtain ⟨e, he, hid, hphase, hnone⟩ := h.pendingOwn id i hlookup
      have herased := h.erasePending id
      refine ⟨?_, ?_, ?_, ?_, ?_, herased.bounded⟩
      · intro a b e' f' he' hf' huuid
        obtain ⟨e, he, hcase⟩ := modify_some he'
        obtain ⟨f, hf, hcase'⟩ := modify_some hf'
        refine h.unique a b e f he hf ?_
        rcases hcase with ⟨-, rfl⟩ | ⟨-, rfl⟩ <;> rcases hcase' with ⟨-, rfl⟩ | ⟨-, rfl⟩ <;>
          exact huuid
      · intro a e' he'
        obtain ⟨e, he, -⟩ := modify_some he'
        exact h.beyond a e he
      · intro a e' he'
        obtain ⟨e₀, he₀, ⟨rfl, rfl⟩ | ⟨-, rfl⟩⟩ := modify_some he'
        · have hsame : e = e₀ := Option.some.inj (he.symm.trans he₀)
          rw [← hsame, hnone]
          exact Nat.le_refl 1
        · exact h.once a _ he₀
      · intro key a hkey
        obtain ⟨hne, hold⟩ := lookup_of_erase hkey
        obtain ⟨f, hf, hfid, hstill, hempty⟩ := h.pendingOwn key a hold
        have ha : a ≠ i := by
          rintro rfl
          have hsame : e = f := Option.some.inj (he.symm.trans hf)
          exact hne (hfid.symm.trans ((congrArg Eval.id hsame).symm.trans hid))
        exact ⟨f, (modify_evals_of_ne ha).trans hf, hfid, hstill, hempty⟩
      · intro key target htarget
        obtain ⟨a, f, hf, hfid, hlive⟩ := h.targetOwn key target htarget
        by_cases ha : a = i
        · subst ha
          exact ⟨a, _, modify_evals_self hf, hfid, hlive⟩
        · exact ⟨a, f, (modify_evals_of_ne ha).trans hf, hfid, hlive⟩

/-! ## Steps -/

theorem reservePending_ok {uuid : Uuid} {t : State} (h : s.reservePending uuid = .ok t) :
    s.pending.keys.length < maxPendingEvals ∧ t = s.insert uuid .agent .live := by
  unfold State.reservePending at h
  by_cases hfull : maxPendingEvals ≤ s.pending.keys.length
  · rw [if_pos hfull] at h
    exact nomatch h
  · rw [if_neg hfull] at h
    exact ⟨by omega, (Except.ok.inj h).symm⟩

/-- All that a page's reservation checks, as counts of keys. -/
theorem reservePageEval_ok {uuid : Uuid} {label : List Char} {t : State}
    (h : s.reservePageEval label uuid = .ok t) :
    s.pending.keys.countP (isWindowKey label) < maxPagePendingEvalsPerWindow ∧
      s.pending.keys.countP pageEvalPrefix.isPrefixOf < maxPagePendingEvals ∧
      s.pending.keys.length < maxPendingEvals ∧
      t = { s.insert uuid (.page label) .binding with holder := some s.count } := by
  unfold State.reservePageEval at h
  have hwindow : (s.pending.keys.filter fun key => pageEvalPrefix.isPrefixOf key).countP
      (fun key => pageEvalWindow key = some label) =
        s.pending.keys.countP (isWindowKey label) := by
    rw [List.countP_filter]
    refine List.countP_congr fun key _ => ?_
    simp [isWindowKey, and_comm]
  have hpage : (s.pending.keys.filter fun key => pageEvalPrefix.isPrefixOf key).length =
      s.pending.keys.countP pageEvalPrefix.isPrefixOf := List.countP_eq_length_filter.symm
  dsimp only at h
  rw [hwindow, hpage] at h
  by_cases hfullWindow : maxPagePendingEvalsPerWindow ≤ s.pending.keys.countP (isWindowKey label)
  · rw [if_pos hfullWindow] at h
    exact nomatch h
  rw [if_neg hfullWindow] at h
  by_cases hfullPage : maxPagePendingEvals ≤ s.pending.keys.countP pageEvalPrefix.isPrefixOf
  · rw [if_pos hfullPage] at h
    exact nomatch h
  rw [if_neg hfullPage] at h
  by_cases hfull : maxPendingEvals ≤ s.pending.keys.length
  · rw [if_pos hfull] at h
    exact nomatch h
  rw [if_neg hfull] at h
  exact ⟨by omega, by omega, by omega, (Except.ok.inj h).symm⟩

theorem step_inv {a : Action} {t : State} (hstep : Step s a t) (h : Inv s) : Inv t := by
  cases hstep with
  | reserve _ hfresh hok =>
      obtain ⟨htotal, rfl⟩ := reservePending_ok hok
      exact h.insert hfresh (by decide) htotal (fun hpage => absurd hpage (by decide))
        fun label horigin => Origin.noConfusion horigin
  | @reservePage _ label uuid _ hfresh hok =>
      obtain ⟨hwindow, hpage, htotal, rfl⟩ := reservePageEval_ok hok
      have hnew : Inv (s.insert uuid (.page label) .binding) :=
        h.insert hfresh (by decide) htotal (fun _ => hpage)
          fun other horigin => (Origin.page.inj horigin) ▸ hwindow
      exact ⟨hnew.unique, hnew.beyond, hnew.once, hnew.pendingOwn, hnew.targetOwn, hnew.bounded⟩
  | @bindPage i e label _ he _ =>
      have hlive : Inv (s.setPhase i .live) :=
        h.setPhase (fun hno => Phase.noConfusion hno) fun hno => absurd rfl hno
      have hbound := hlive.bindWindow (modify_evals_self he) rfl (some label)
      exact ⟨hbound.unique, hbound.beyond, hbound.once, hbound.pendingOwn, hbound.targetOwn,
        hbound.bounded⟩
  | bind he hlive => exact h.bindWindow he hlive _
  | @drop i e he _ =>
      refine (h.eraseTarget e.id).setPhase (fun hno => Phase.noConfusion hno) fun _ f hf => ?_
      have hsame : e = f := Option.some.inj (he.symm.trans hf)
      rw [← hsame]
      exact AList.lookup_erase e.id s.targets
  | @defer i e he hphase =>
      refine h.setPhase (fun hno => Phase.noConfusion hno) fun _ f hf => ?_
      refine h.target_none hf ?_
      have hsame : e = f := Option.some.inj (he.symm.trans hf)
      rw [← hsame, hphase]
      decide
  | @remove i e _ he hphase =>
      refine (h.erasePending e.id).setPhase (fun _ key hlookup => ?_) fun _ f hf => ?_
      · obtain ⟨hne, hold⟩ := lookup_of_erase hlookup
        obtain ⟨f, hf, hid, -⟩ := h.pendingOwn key i hold
        have hsame : e = f := Option.some.inj (he.symm.trans hf)
        exact hne (hsame ▸ hid.symm)
      · refine h.target_none hf ?_
        have hsame : e = f := Option.some.inj (he.symm.trans hf)
        rw [← hsame]
        rcases hphase with hphase | hphase <;> rw [hphase] <;> decide
  | accept =>
      unfold State.acceptEvalResult
      split
      · exact ⟨h.unique, h.beyond, h.once, h.pendingOwn, h.targetOwn, h.bounded⟩
      · exact h
  | postpone _ _ => exact ⟨h.unique, h.beyond, h.once, h.pendingOwn, h.targetOwn, h.bounded⟩
  | @deliver d before after _ _ =>
      have hrest : Inv { s with deliveries := before ++ after } :=
        ⟨h.unique, h.beyond, h.once, h.pendingOwn, h.targetOwn, h.bounded⟩
      exact hrest.deliver d.id d.response

theorem run_inv {as : List Action} {t : State} (hrun : Run Step initial as t) : Inv t :=
  hrun.invariant (fun _ _ _ hs hstep => step_inv hstep hs) inv_initial

/-! ## Where results come from -/

/-- In the run, the result was accepted from a window that the eval with this id was bound to. -/
def Accepted (as : List Action) (s : State) (id : List Char) (r : Response) : Prop :=
  ∃ before after t target default,
    as = before ++ .accept id r.caller default r.result :: after ∧ Run Step initial before t ∧
      Run Step t (.accept id r.caller default r.result :: after) s ∧
        t.targets.lookup id = some target ∧ target.admits default r.caller = true

theorem Accepted.snoc {as : List Action} {a : Action} {t : State} {id : List Char} {r : Response}
    (h : Accepted as s id r) (hstep : Step s a t) : Accepted (as ++ [a]) t id r := by
  obtain ⟨before, after, u, target, default, rfl, hbefore, hafter, htarget, hadmits⟩ := h
  exact ⟨before, after ++ [a], u, target, default, by simp, hbefore, hafter.snoc hstep, htarget,
    hadmits⟩

/-- A result on its way was on its way before, or is accepted by the step. -/
theorem step_deliveries {as : List Action} {a : Action} {t : State}
    (hrun : Run Step initial as s) (hstep : Step s a t)
    (h : ∀ d ∈ s.deliveries, Accepted as s d.id d.response) :
    ∀ d ∈ t.deliveries, Accepted (as ++ [a]) t d.id d.response := by
  have hold : ∀ d ∈ s.deliveries, Accepted (as ++ [a]) t d.id d.response :=
    fun d hd => (h d hd).snoc hstep
  have hwhole := hstep
  cases hstep with
  | reserve _ _ hok =>
      obtain ⟨-, rfl⟩ := reservePending_ok hok
      exact hold
  | reservePage _ _ hok =>
      obtain ⟨-, -, -, rfl⟩ := reservePageEval_ok hok
      exact hold
  | bindPage _ _ _ => exact hold
  | bind _ _ => exact hold
  | drop _ _ => exact hold
  | defer _ _ => exact hold
  | remove _ _ _ => exact hold
  | @accept id caller default result =>
      intro d hd
      unfold State.acceptEvalResult at hd
      by_cases haccepted : s.evalResultAccepted id caller default = true
      · rw [if_pos haccepted] at hd
        rcases List.mem_append.mp hd with hd | hd
        · exact hold d hd
        · rw [List.mem_singleton.mp hd]
          unfold State.evalResultAccepted at haccepted
          cases htarget : s.targets.lookup id with
          | none =>
              rw [htarget] at haccepted
              exact absurd haccepted Bool.false_ne_true
          | some target =>
              rw [htarget] at haccepted
              exact ⟨as, [], s, target, default, rfl, hrun, .single hwhole, htarget, haccepted⟩
      · rw [if_neg haccepted] at hd
        exact hold d hd
  | @postpone moved before after hsplit _ =>
      intro d hd
      rcases List.mem_append.mp hd with hd | hd
      · exact hold d (by rw [hsplit]; exact List.mem_append_left _ hd)
      · rcases List.mem_cons.mp hd with rfl | hd
        · exact hold moved (by rw [hsplit]; exact List.mem_append_right _ List.mem_cons_self)
        · refine hold d ?_
          rw [hsplit]
          exact List.mem_append_right _ (List.mem_cons_of_mem _ hd)
  | @deliver sent before after _ hsplit =>
      have hsame : ({ s with deliveries := before ++ after }.deliverEvalResult sent.id
          sent.response).deliveries = before ++ after := by
        unfold State.deliverEvalResult
        split <;> rfl
      intro d hd
      rw [hsame] at hd
      refine hold d ?_
      rw [hsplit]
      rcases List.mem_append.mp hd with hd | hd
      · exact List.mem_append_left _ hd
      · exact List.mem_append_right _ (List.mem_cons_of_mem _ hd)

/-- An eval that is there keeps its id. -/
theorem modify_kept (f : Eval → Eval) (hid : ∀ e, (f e).id = e.id) {j : Nat} {e' : Eval}
    (h : s.evals j = some e') : ∃ e, (s.modify i f).evals j = some e ∧ e.id = e'.id := by
  by_cases hj : j = i
  · subst hj
    exact ⟨_, modify_evals_self h, hid e'⟩
  · exact ⟨e', (modify_evals_of_ne hj).trans h, rfl⟩

theorem setPhase_kept {phase : Phase} {j : Nat} {e' : Eval} (h : s.evals j = some e') :
    ∃ e, (s.setPhase i phase).evals j = some e ∧ e.id = e'.id :=
  modify_kept (fun e => { e with phase := phase }) (fun _ => rfl) h

theorem step_kept {a : Action} {t : State} (hinv : Inv s) (hstep : Step s a t)
    (h : s.evals i = some e) : ∃ e', t.evals i = some e' ∧ e'.id = e.id := by
  have hphase (j : Nat) (phase : Phase) :
      ∃ e', (s.setPhase j phase).evals i = some e' ∧ e'.id = e.id := setPhase_kept h
  cases hstep with
  | reserve _ _ hok =>
      obtain ⟨-, rfl⟩ := reservePending_ok hok
      exact ⟨e, insert_evals_of_some hinv h, rfl⟩
  | reservePage _ _ hok =>
      obtain ⟨-, -, -, rfl⟩ := reservePageEval_ok hok
      exact ⟨e, insert_evals_of_some hinv h, rfl⟩
  | @bindPage j _ _ _ _ _ => exact hphase j .live
  | bind _ _ => exact ⟨e, h, rfl⟩
  | @drop j _ _ _ => exact hphase j .dropping
  | @defer j _ _ _ => exact hphase j .deferred
  | @remove j _ _ _ _ => exact hphase j .removed
  | accept =>
      unfold State.acceptEvalResult
      split <;> exact ⟨e, h, rfl⟩
  | postpone _ _ => exact ⟨e, h, rfl⟩
  | @deliver d before after _ _ =>
      unfold State.deliverEvalResult
      split
      · exact modify_kept (fun e => { e with received := e.received ++ [d.response] })
          (fun _ => rfl) h
      · exact ⟨e, h, rfl⟩

/-- A response that an eval has was there before, or is the one delivered. -/
theorem step_received {a : Action} {t : State} (hinv : Inv s) (hstep : Step s a t)
    {e' : Eval} {r : Response} (he' : t.evals i = some e') (hr : r ∈ e'.received) :
    (∃ e, s.evals i = some e ∧ e.id = e'.id ∧ r ∈ e.received) ∨
      ∃ d ∈ s.deliveries, d.id = e'.id ∧ d.response = r := by
  have hphase (j : Nat) (phase : Phase) (he' : (s.setPhase j phase).evals i = some e') :
      ∃ e, s.evals i = some e ∧ e.id = e'.id ∧ r ∈ e.received := by
    obtain ⟨e, he, ⟨-, rfl⟩ | ⟨-, rfl⟩⟩ := modify_some he'
    · exact ⟨e, he, rfl, hr⟩
    · exact ⟨e', he, rfl, hr⟩
  have hinsert {uuid : Uuid} {origin : Origin} {phase : Phase}
      (he' : (s.insert uuid origin phase).evals i = some e') :
      ∃ e, s.evals i = some e ∧ e.id = e'.id ∧ r ∈ e.received := by
    rcases insert_evals he' with ⟨-, rfl⟩ | ⟨-, he⟩
    · exact absurd hr List.not_mem_nil
    · exact ⟨e', he, rfl, hr⟩
  cases hstep with
  | reserve _ _ hok =>
      obtain ⟨-, rfl⟩ := reservePending_ok hok
      exact Or.inl (hinsert he')
  | reservePage _ _ hok =>
      obtain ⟨-, -, -, rfl⟩ := reservePageEval_ok hok
      exact Or.inl (hinsert he')
  | @bindPage j _ _ _ _ _ => exact Or.inl (hphase j .live he')
  | bind _ _ => exact Or.inl ⟨e', he', rfl, hr⟩
  | @drop j _ _ _ => exact Or.inl (hphase j .dropping he')
  | @defer j _ _ _ => exact Or.inl (hphase j .deferred he')
  | @remove j _ _ _ _ => exact Or.inl (hphase j .removed he')
  | accept =>
      unfold State.acceptEvalResult at he'
      split at he' <;> exact Or.inl ⟨e', he', rfl, hr⟩
  | postpone _ _ => exact Or.inl ⟨e', he', rfl, hr⟩
  | @deliver d before after _ hsplit =>
      have hd : d ∈ s.deliveries := by
        rw [hsplit]
        exact List.mem_append_right _ List.mem_cons_self
      unfold State.deliverEvalResult at he'
      cases hlookup : s.pending.lookup d.id with
      | none =>
          simp only [hlookup] at he'
          exact Or.inl ⟨e', he', rfl, hr⟩
      | some j =>
          simp only [hlookup] at he'
          obtain ⟨f, hf, hid, -, hnone⟩ := hinv.pendingOwn d.id j hlookup
          obtain ⟨e, he, ⟨rfl, rfl⟩ | ⟨-, rfl⟩⟩ := modify_some he'
          · have hsame : f = e := Option.some.inj (hf.symm.trans he)
            rw [← hsame, hnone] at hr
            refine Or.inr ⟨d, hd, ?_, (List.mem_singleton.mp hr).symm⟩
            rw [← hid, hsame]
            rfl
          · exact Or.inl ⟨e', he, rfl, hr⟩

/-! ## Runs -/

/-- Every result on its way, and every one received, was accepted in the run. -/
structure Traced (as : List Action) (s : State) : Prop where
  deliveries : ∀ d ∈ s.deliveries, Accepted as s d.id d.response
  received : ∀ i e r, s.evals i = some e → r ∈ e.received → Accepted as s e.id r

theorem run_traced {as : List Action} {t : State} (hrun : Run Step initial as t) :
    Traced as t := by
  refine Run.snocInduction (motive := Traced) ?_ ?_ hrun
  · refine ⟨fun d hd => absurd hd List.not_mem_nil, fun i e r he => ?_⟩
    exact absurd he (Option.some_ne_none e).symm
  · intro as s a t hrun htraced hstep
    refine ⟨step_deliveries hrun hstep htraced.deliveries, fun i e r he hr => ?_⟩
    rcases step_received (run_inv hrun) hstep he hr with ⟨e', he', hid, hr'⟩ | ⟨d, hd, hid, hr'⟩
    · rw [← hid]
      exact (htraced.received i e' r he' hr').snoc hstep
    · rw [← hid, ← hr']
      exact (htraced.deliveries d hd).snoc hstep

theorem run_kept {as : List Action} {t : State} (hinv : Inv s) (hrun : Run Step s as t)
    (h : s.evals i = some e) : ∃ e', t.evals i = some e' ∧ e'.id = e.id := by
  induction hrun generalizing e with
  | nil => exact ⟨e, h, rfl⟩
  | cons hstep _ ih =>
      obtain ⟨e', he', hid⟩ := step_kept hinv hstep h
      obtain ⟨e'', he'', hid'⟩ := ih (step_inv hstep hinv) he'
      exact ⟨e'', he'', hid'.trans hid⟩

/-- The entries of evals that a page or an agent started, as `which` says. -/
def pendingOf (s : State) (which : Origin → Bool) : Nat :=
  s.pending.entries.countP fun entry =>
    match s.evals entry.2 with
    | some e => which e.origin
    | none => false

/-- Counting entries by their evals is counting keys. -/
theorem pendingOf_eq (h : Inv s) (which : Origin → Bool) (ofKey : List Char → Bool)
    (hwhich : ∀ origin uuid, ofKey (Origin.id origin uuid) = which origin) :
    pendingOf s which = s.pending.keys.countP ofKey := by
  have hkeys : s.pending.keys = s.pending.entries.map Sigma.fst := rfl
  rw [hkeys, List.countP_map]
  refine List.countP_congr fun entry hentry => ?_
  obtain ⟨key, i⟩ := entry
  obtain ⟨e, he, hid, -⟩ := h.pendingOwn key i (AList.mem_lookup_iff.mpr hentry)
  have hof : ofKey key = which e.origin := by
    rw [← hid]
    exact hwhich e.origin e.uuid
  simp only [he, Function.comp_apply, hof]

theorem pendingOf_isPage (h : Inv s) : pendingOf s Origin.isPage ≤ maxPagePendingEvals := by
  rw [pendingOf_eq h Origin.isPage pageEvalPrefix.isPrefixOf Origin.isPrefixOf_id]
  exact h.bounded.page

theorem pendingOf_window (h : Inv s) (label : List Char) :
    pendingOf s (fun origin => decide (origin = .page label)) ≤ maxPagePendingEvalsPerWindow := by
  rw [pendingOf_eq h _ (isWindowKey label)]
  · exact h.bounded.window label
  · intro origin uuid
    rw [isWindowKey, Origin.isPrefixOf_id]
    cases origin with
    | agent => rfl
    | page other =>
        rw [Origin.pageEvalWindow_id]
        simp [Origin.isPage]

/-- In the run, the result was accepted while the eval `i` was bound to a window that sent it. -/
def FromBoundWindow (as : List Action) (s : State) (i : Nat) (r : Response) : Prop :=
  ∃ before after t e target default,
    as = before ++ .accept e.id r.caller default r.result :: after ∧ Run Step initial before t ∧
      Run Step t (.accept e.id r.caller default r.result :: after) s ∧ t.evals i = some e ∧
        e.phase = .live ∧ t.targets.lookup e.id = some target ∧
          target.admits default r.caller = true

structure Kept (as : List Action) (s : State) : Prop where
  total : s.pending.keys.length ≤ maxPendingEvals
  page : pendingOf s Origin.isPage ≤ maxPagePendingEvals
  window : ∀ label,
    pendingOf s (fun origin => decide (origin = .page label)) ≤ maxPagePendingEvalsPerWindow
  once : ∀ i e, s.evals i = some e → e.received.length ≤ 1
  bound : ∀ i e, s.evals i = some e → ∀ r ∈ e.received, FromBoundWindow as s i r
  empty : (∀ i e, s.evals i = some e → e.phase = .removed) → s.pending = ∅ ∧ s.targets = ∅

theorem evals_kept (as : List Action) (s : State) (hrun : Run Step initial as s) : Kept as s := by
  have hinv := run_inv hrun
  refine ⟨hinv.bounded.total, pendingOf_isPage hinv, pendingOf_window hinv, hinv.once, ?_, ?_⟩
  · intro i e he r hr
    obtain ⟨before, after, t, target, default, has, hbefore, hafter, htarget, hadmits⟩ :=
      (run_traced hrun).received i e r he hr
    obtain ⟨j, f, hf, hid, hlive⟩ := (run_inv hbefore).targetOwn e.id target htarget
    -- the eval that was bound then is the one that has the response now
    obtain ⟨f', hf', hid'⟩ := run_kept (run_inv hbefore) hafter hf
    have hij : i = j :=
      hinv.unique i j e f' he hf' (Origin.id_inj (hid.symm.trans hid'.symm))
    subst hij
    rw [← hid] at has hafter htarget
    exact ⟨before, after, t, f, target, default, has, hbefore, hafter, hf, hlive, htarget, hadmits⟩
  · intro hgone
    constructor
    · refine AList.ext (List.eq_nil_iff_forall_not_mem.mpr fun entry hentry => ?_)
      obtain ⟨key, i⟩ := entry
      obtain ⟨e, he, -, hphase, -⟩ := hinv.pendingOwn key i (AList.mem_lookup_iff.mpr hentry)
      exact hphase (hgone i e he)
    · refine AList.ext (List.eq_nil_iff_forall_not_mem.mpr fun entry hentry => ?_)
      obtain ⟨key, target⟩ := entry
      obtain ⟨i, e, he, -, hlive⟩ := hinv.targetOwn key target (AList.mem_lookup_iff.mpr hentry)
      exact absurd (hlive.symm.trans (hgone i e he)) (by decide)

end Steps

/-! ## A run -/

def zeroUuid : Uuid where
  text := List.replicate 36 '0'
  length_eq := List.length_replicate
  isHex := fun c hc => Or.inl (by rw [List.eq_of_mem_replicate hc]; rfl)

def mainWindow : List Char := "main".toList

/-- An eval is bound to a window that answers it; the answer is delivered late, and the entry of
the dropped slot is removed by a task. -/
def answeredLate : List Action :=
  [.reserve zeroUuid, .bind 0 (some mainWindow), .accept zeroUuid.text mainWindow none "1",
    .postpone ⟨zeroUuid.text, ⟨mainWindow, "1"⟩, false⟩,
    .deliver ⟨zeroUuid.text, ⟨mainWindow, "1"⟩, true⟩, .drop 0, .defer 0, .remove 0]

theorem exists_run_cons {s t : State} {a : Action} {as : List Action} (h : Step s a t)
    (hrest : ∃ u, Run Step t as u) : ∃ u, Run Step s (a :: as) u :=
  hrest.imp fun _ => .cons h

theorem answeredLate_run : ∃ s, Run Step initial answeredLate s := by
  have hfresh : Fresh initial zeroUuid := fun i e he => absurd he (Option.some_ne_none e).symm
  refine exists_run_cons (.reserve rfl hfresh rfl) ?_
  refine exists_run_cons (.bind (e := ⟨zeroUuid, .agent, .live, []⟩) rfl rfl) ?_
  refine exists_run_cons .accept ?_
  refine exists_run_cons (@Step.postpone _ _ [] [] rfl rfl) ?_
  refine exists_run_cons (@Step.deliver _ _ [] [] rfl rfl) ?_
  refine exists_run_cons (.drop (e := ⟨zeroUuid, .agent, .live, [⟨mainWindow, "1"⟩]⟩) rfl rfl) ?_
  refine exists_run_cons
    (.defer (e := ⟨zeroUuid, .agent, .dropping, [⟨mainWindow, "1"⟩]⟩) rfl rfl) ?_
  refine exists_run_cons
    (.remove (e := ⟨zeroUuid, .agent, .deferred, [⟨mainWindow, "1"⟩]⟩) rfl rfl (Or.inr rfl)) ?_
  exact ⟨_, .nil _⟩

theorem evals_kept_answeredLate : ∃ s, Run Step initial answeredLate s ∧ Kept answeredLate s := by
  obtain ⟨s, hrun⟩ := answeredLate_run
  exact ⟨s, hrun, evals_kept answeredLate s hrun⟩

end Victauri.Plugin.PendingEvals
