import Mathlib.Data.Fintype.Card
import Victauri.Plugin.Mcp.EvalOutcome
import Victauri.Plugin.Mcp.Unwrap

/-!
# Code that is said not to have run did not run

Whatever the order of steps, the page sends one outcome for an eval at most, and neither a
not-run report nor a failure of kind `NotSent` is about code that began or ever begins.

The invariant says of one eval what its scripts, its code and its outcomes can be.  It
needs `evalDone` to remember the eval from its finish to its last step, which it does
while fewer than `EVAL_DONE_CAP` other evals finish in between (`Spaced`).
-/

namespace Victauri.Plugin.Mcp

open Victauri.Core.Json Victauri.Plugin.Bridge Victauri.Plugin.Page

/-- The wrapper is not delivered yet. -/
def HostPc.BeforeDelivery : HostPc → Prop
  | .idle | .probing | .reserving | .sending => True
  | _ => False

/-- The check is not delivered yet. -/
def HostPc.BeforeCheck : HostPc → Prop
  | .checking => True
  | pc => pc.BeforeDelivery

theorem HostPc.BeforeDelivery.beforeCheck {pc : HostPc} (h : pc.BeforeDelivery) :
    pc.BeforeCheck := by
  cases pc <;> trivial

/-- The page the code began in. -/
def CodePc.BegunIn (page : Nat) : CodePc → Prop
  | .notBegun => False
  | .running p | .settling p | .ended p => p = page

namespace Evals

/-! ## The bound on other evals -/

section History

variable {Id : Type}

/-- The evals that finished, in this order. -/
def finished (history : List (PageStep Id)) : List Id :=
  (history.filter (·.finishes)).map (·.id)

/-- Between two steps of one eval, fewer than `EVAL_DONE_CAP` other evals finish. -/
def Spaced (history : List (PageStep Id)) : Prop :=
  ∀ before between after p q, history = before ++ p :: between ++ q :: after → p.id = q.id →
    ∀ others : List Id, others.Nodup →
      (∀ k ∈ others, k ≠ p.id ∧ { id := k, finishes := true } ∈ between) →
      others.length < evalDoneCap

theorem Spaced.of_prefix {history history' : List (PageStep Id)} (h : Spaced history')
    (hinit : history <+: history') : Spaced history := by
  obtain ⟨more, rfl⟩ := hinit
  intro before between after p q hsplit
  exact h before between (after ++ more) p q (by rw [hsplit]; simp)

theorem mem_finished {history : List (PageStep Id)} {k : Id} :
    k ∈ finished history ↔ { id := k, finishes := true } ∈ history := by
  simp only [finished, List.mem_map, List.mem_filter]
  constructor
  · rintro ⟨⟨id, finishes⟩, ⟨hmem, rfl⟩, rfl⟩
    exact hmem
  · exact fun hmem => ⟨_, ⟨hmem, rfl⟩, rfl⟩

theorem finished_append (history : List (PageStep Id)) (p : PageStep Id) :
    finished (history ++ [p]) =
      finished history ++ if p.finishes then [p.id] else [] := by
  rw [finished, List.filter_append, List.map_append]
  congr 1
  cases h : p.finishes <;> simp [h]

end History

variable {Id Nonce : Type} [DecidableEq Id] {number : NumberFormat}

/-! ## The invariant of one eval -/

/-- What the invariant of an eval is about. -/
structure View (Nonce : Type) (number : NumberFormat) where
  pages : List Nonce
  /-- `evalState` has the eval. -/
  live : Bool
  /-- It finished in the current page. -/
  settledHere : Bool
  settled : Bool
  eval : Eval Nonce number

/-- The steps of the current page. -/
def log (s : Evals Id Nonce number) : List Id := finished (s.history.drop s.loaded)

def view (s : Evals Id Nonce number) (k : Id) : View Nonce number :=
  { pages := s.pages
    live := s.bridge.evalState k
    settledHere := decide (k ∈ s.log)
    settled := decide (k ∈ finished s.history)
    eval := s.evals k }

structure View.Ok (v : View Nonce number) : Prop where
  wrapper_unsent : v.eval.host.BeforeDelivery → v.eval.wrapper = .unsent
  check_unsent : v.eval.host.BeforeCheck → v.eval.check = .unsent
  /-- Before its wrapper has run nothing of an eval happens in the page. -/
  fresh : v.eval.wrapper ≠ .gone → v.eval.code = .notBegun ∧ v.settled = false
  answer : ∀ n, v.eval.answer = some n → n ∈ v.pages
  armed : ∀ n, v.eval.armed = some n → n ∈ v.pages
  /-- The page the eval was armed in is not after the one its code began in. -/
  armed_before : ∀ p, v.eval.code.BegunIn p →
    p ≤ v.pages.length ∧ ∀ n, v.eval.armed = some n → ∃ q < p, v.pages[q]? = some n
  starts : v.eval.code = .notBegun → v.eval.starts = 0
  running : ∀ p, v.eval.code = .running p →
    v.settled = false ∧ (p = v.pages.length → v.live = true)
  settled : ∀ p, v.eval.code = .settling p ∨ v.eval.code = .ended p →
    v.settled = true ∧ (p = v.pages.length → v.settledHere = true)
  unchecked : v.eval.check ≠ .gone → v.eval.code = .notBegun → v.settled = false
  one : v.eval.sent.length ≤ 1
  sent_settled : v.eval.sent ≠ [] → v.settled = true
  /-- Code that is reported not to have begun cannot begin any more. -/
  verdict : .notRun ∈ v.eval.sent → v.eval.code = .notBegun ∧ v.eval.wrapper = .gone
  mail : ∀ body ∈ v.eval.mail, ∃ outcome ∈ v.eval.sent, body = outcomeBody outcome
  received : ∀ body, v.eval.received = some body →
    ∃ outcome ∈ v.eval.sent, body = outcomeBody outcome
  notSent : ∀ failure, v.eval.host = .returned (.error failure) → failure.kind = .notSent →
    v.eval.wrapper = .unsent ∨ .notRun ∈ v.eval.sent

structure Inv (s : Evals Id Nonce number) : Prop where
  pages : s.pages.Nodup
  current : s.pages[s.page - 1]? = some s.bridge.pageNonce
  loaded : s.loaded ≤ s.history.length
  done : s.bridge.evalDone.Tracks s.log
  once : (finished s.history).Nodup
  ok : ∀ k, (s.view k).Ok

theorem inv_init (nonce : Nonce) : Inv (init nonce : Evals Id Nonce number) where
  pages := List.nodup_singleton nonce
  current := rfl
  loaded := Nat.le_refl 0
  done := EvalDone.tracks_empty
  once := List.nodup_nil
  ok k := by
    constructor <;> simp [view, init, Eval.new, CodePc.BegunIn, finished]

/-! ## Steps that leave the page alone -/

variable {s : Evals Id Nonce number} {k : Id} {e : Eval Nonce number}

theorem view_set_self : (s.set k e).view k = { s.view k with eval := e } := by
  simp only [view, set, Function.update_self]
  rfl

theorem view_set_of_ne {j : Id} (h : j ≠ k) : (s.set k e).view j = s.view j := by
  simp only [view, set, Function.update_of_ne h]
  rfl

theorem Inv.set (h : Inv s) (hok : { s.view k with eval := e : View Nonce number }.Ok) :
    Inv (s.set k e) where
  pages := h.pages
  current := h.current
  loaded := h.loaded
  done := h.done
  once := h.once
  ok j := by
    by_cases hj : j = k
    · subst hj
      rwa [view_set_self]
    · rw [view_set_of_ne hj]
      exact h.ok j

/-! ## Steps in the page -/

omit [DecidableEq Id] in
theorem log_append (h : s.loaded ≤ s.history.length) (p : PageStep Id) :
    finished ((s.history ++ [p]).drop s.loaded) =
      s.log ++ if p.finishes then [p.id] else [] := by
  rw [List.drop_append_of_le_length h, finished_append, log]

/-- What `evalDone` must remember it does remember. -/
theorem Inv.has_of_log (h : Inv s) {finishes : Bool}
    (hspaced : Spaced (s.history ++ [{ id := k, finishes }])) (hk : k ∈ s.log) :
    s.bridge.evalDone.has k = true := by
  obtain ⟨a, c, hsince⟩ := List.append_of_mem (mem_finished.mp hk)
  have hlog : s.log = finished a ++ k :: finished c := by
    rw [log, hsince]
    simp [finished]
  have hhistory : s.history =
      s.history.take s.loaded ++ a ++ { id := k, finishes := true } :: c := by
    rw [List.append_assoc, ← hsince, List.take_append_drop]
  have hsub : (k :: finished c).Sublist (finished s.history) := by
    rw [hhistory]
    simp [finished]
  have hnodup := List.nodup_cons.mp (h.once.sublist hsub)
  refine h.done.has_of_recent hlog
    (hspaced (s.history.take s.loaded ++ a) c [] { id := k, finishes := true }
      { id := k, finishes } (by rw [← hhistory]) rfl (finished c) hnodup.2
      fun j hj => ⟨?_, mem_finished.mp hj⟩)
  rintro rfl
  exact hnodup.1 hj

theorem Inv.not_has (h : Inv s) (hk : (s.view k).settled = false) :
    s.bridge.evalDone.has k = false := by
  refine h.done.not_has fun hlog => ?_
  have hmem : { id := k, finishes := true } ∈ s.history :=
    List.mem_of_mem_drop (mem_finished.mp hlog)
  exact absurd (mem_finished.mpr hmem) (of_decide_eq_false hk)

/-- A step of `k` in the page. -/
theorem Inv.inPage (h : Inv s) {t : Evals Id Nonce number} {p : PageStep Id} (hp : p.id = k)
    (hpages : t.pages = s.pages) (hnonce : t.bridge.pageNonce = s.bridge.pageNonce)
    (hhistory : t.history = s.history ++ [p]) (hloaded : t.loaded = s.loaded)
    (hothers : ∀ j, j ≠ k →
      t.bridge.evalState j = s.bridge.evalState j ∧ t.evals j = s.evals j)
    (hdone : t.bridge.evalDone.Tracks (s.log ++ if p.finishes then [k] else []))
    (hnew : p.finishes = true → k ∉ finished s.history) (hok : (t.view k).Ok) : Inv t := by
  have hlog : t.log = s.log ++ if p.finishes then [k] else [] := by
    rw [log, hhistory, hloaded, log_append h.loaded, hp]
  have hfinished : finished t.history = finished s.history ++ if p.finishes then [k] else [] := by
    rw [hhistory, finished_append, hp]
  constructor
  · rw [hpages]
    exact h.pages
  · rw [page, hpages, hnonce]
    exact h.current
  · rw [hhistory, hloaded, List.length_append]
    exact Nat.le_add_right_of_le h.loaded
  · rwa [hlog]
  · rw [hfinished]
    split_ifs with hfinishes
    · exact List.nodup_append.mpr ⟨h.once, List.nodup_singleton k, fun j hj j' hj' heq =>
        hnew hfinishes (List.mem_singleton.mp hj' ▸ heq ▸ hj)⟩
    · rw [List.append_nil]
      exact h.once
  · intro j
    by_cases hj : j = k
    · rwa [hj]
    · have hview : t.view j = s.view j := by
        have hmem : ∀ l : List Id, (j ∈ l ++ if p.finishes then [k] else []) ↔ j ∈ l := by
          intro l
          rw [List.mem_append, or_iff_left]
          split_ifs <;> simp [hj]
        simp only [view, hpages, hothers j hj, hlog, hfinished, hmem]
      rw [hview]
      exact h.ok j

theorem view_inPage_self (h : s.loaded ≤ s.history.length)
    (r : Option (Outcome number) × Bridge Id Nonce) :
    (s.inPage k e r).view k =
      { pages := s.pages
        live := r.2.evalState k
        settledHere := decide (k ∈ s.log ++ if r.1.isSome then [k] else [])
        settled := decide (k ∈ finished s.history ++ if r.1.isSome then [k] else [])
        eval := e.post r.1 } := by
  have hlog : (s.inPage k e r).log = s.log ++ if r.1.isSome then [k] else [] :=
    log_append h _
  have hfinished : finished (s.inPage k e r).history =
      finished s.history ++ if r.1.isSome then [k] else [] := finished_append _ _
  have heval : (s.inPage k e r).evals k = e.post r.1 := Function.update_self _ _ _
  simp only [view, hlog, hfinished, heval]
  rfl

/-- A step in the page that changes neither table and sends nothing. -/
theorem Inv.silent (h : Inv s)
    (hok : { s.view k with eval := e : View Nonce number }.Ok) :
    Inv (s.inPage k e (none, s.bridge)) := by
  refine h.inPage (p := { id := k, finishes := false }) rfl rfl rfl rfl rfl
    (fun j hj => ⟨rfl, Function.update_of_ne hj _ _⟩) ?_ (fun hfinishes => by cases hfinishes) ?_
  · rw [if_neg Bool.false_ne_true, List.append_nil]
    exact h.done
  · rw [view_inPage_self h.loaded]
    simpa [Evals.view] using hok

/-- A step in the page by which the eval finishes. -/
theorem Inv.finish (h : Inv s) (hk : (s.view k).settled = false) (outcome : Outcome number)
    (hok : { s.view k with
      live := false, settledHere := true, settled := true
      eval := e.post (some outcome) : View Nonce number }.Ok) :
    Inv (s.inPage k e (some outcome, s.bridge.evalMarkDone k)) := by
  refine h.inPage (p := { id := k, finishes := true }) rfl rfl rfl rfl rfl
    (fun j hj => ⟨Function.update_of_ne hj _ _, Function.update_of_ne hj _ _⟩)
    (h.done.add (h.not_has hk)) (fun _ => of_decide_eq_false hk) ?_
  rw [view_inPage_self h.loaded]
  simpa [Evals.view, Bridge.evalMarkDone] using hok

/-- The code begins. -/
theorem Inv.begin (h : Inv s) (hk : (s.view k).settled = false)
    (hok : { s.view k with
      live := true
      eval := { s.evals k with
        wrapper := .gone, code := .running s.page
        starts := (s.evals k).starts + 1 } : View Nonce number }.Ok) :
    Inv (s.begun k) := by
  have hbegun : s.begun k = s.inPage k
      { s.evals k with
        wrapper := .gone, code := .running s.page, starts := (s.evals k).starts + 1 }
      (none, { s.bridge with evalState := Function.update s.bridge.evalState k true }) := by
    simp [begun, Bridge.evalBegin, h.not_has hk]
  rw [hbegun]
  refine h.inPage (p := { id := k, finishes := false }) rfl rfl rfl rfl rfl
    (fun j hj => ⟨Function.update_of_ne hj _ _, Function.update_of_ne hj _ _⟩) ?_
    (fun hfinishes => by cases hfinishes) ?_
  · rw [if_neg Bool.false_ne_true, List.append_nil]
    exact h.done
  · rw [view_inPage_self h.loaded]
    simpa [Evals.view] using hok

/-! ## What the steps do to one eval -/

/-- Every body on its way or received is that of an outcome sent. -/
theorem Eval.mem_sent_post {e : Eval Nonce number} (outcome : Outcome number)
    {body : List Char} (hbody : ∃ o ∈ e.sent, body = outcomeBody o) :
    ∃ o ∈ (e.post (some outcome)).sent, body = outcomeBody o := by
  obtain ⟨o, ho, rfl⟩ := hbody
  exact ⟨o, List.mem_append_left _ ho, rfl⟩

theorem Eval.mail_post {e : Eval Nonce number} (outcome : Outcome number)
    (hmail : ∀ body ∈ e.mail, ∃ o ∈ e.sent, body = outcomeBody o) :
    ∀ body ∈ (e.post (some outcome)).mail,
      ∃ o ∈ (e.post (some outcome)).sent, body = outcomeBody o := by
  intro body hbody
  rcases List.mem_append.mp hbody with hbody | hbody
  · exact Eval.mem_sent_post outcome (hmail body hbody)
  · rw [Option.toList_some, List.map_singleton, List.mem_singleton] at hbody
    exact ⟨outcome, List.mem_append_right _ (List.mem_singleton_self _), hbody⟩

section View

variable {v : View Nonce number} (h : v.Ok)

include h

theorem View.Ok.sent_nil (hsettled : v.settled = false) : v.eval.sent = [] := by
  by_contra hne
  rw [h.sent_settled hne] at hsettled
  cases hsettled

/-- Nothing is sent for code that has not settled, and no verdict on code that began. -/
theorem View.Ok.not_verdict (hcode : v.eval.code ≠ .notBegun) : .notRun ∉ v.eval.sent :=
  fun hmem => hcode (h.verdict hmem).1

/-- The call goes on before the wrapper is delivered. -/
theorem View.Ok.goOn (hpc : v.eval.host.BeforeDelivery) (pc : HostPc) (probe : Script)
    (slot : Bool) (hreturned : ∀ result, pc ≠ .returned result) :
    { v with eval := { v.eval with host := pc, probe, slot } : View Nonce number }.Ok :=
  { h with
    wrapper_unsent := fun _ => h.wrapper_unsent hpc
    check_unsent := fun _ => h.check_unsent hpc.beforeCheck
    notSent := fun _ heq => absurd heq (hreturned _) }

/-- The page answered the probe. -/
theorem View.Ok.probed (hpc : v.eval.host.BeforeDelivery) {nonce : Nonce}
    (hanswer : v.eval.answer = some nonce) :
    { v with eval := { v.eval with host := .reserving, armed := some nonce } :
      View Nonce number }.Ok := by
  have hcode := (h.fresh (by rw [h.wrapper_unsent hpc]; nofun)).1
  exact { h with
    wrapper_unsent := fun _ => h.wrapper_unsent hpc
    check_unsent := fun _ => h.check_unsent hpc.beforeCheck
    notSent := nofun
    armed := by
      rintro n ⟨⟩
      exact h.answer nonce hanswer
    armed_before := fun p hp => by
      have hp : v.eval.code.BegunIn p := hp
      rw [hcode] at hp
      cases hp }

/-- The call returns before the wrapper is delivered. -/
theorem View.Ok.return_early (hpc : v.eval.host.BeforeDelivery) (failure : EvalFailure)
    (slot : Bool) :
    { v with eval := { v.eval with host := .returned (.error failure), slot } :
      View Nonce number }.Ok :=
  { h with
    wrapper_unsent := nofun, check_unsent := nofun
    notSent := fun _ _ _ => .inl (h.wrapper_unsent hpc) }

/-- The wrapper is delivered, or its delivery fails. -/
theorem View.Ok.deliver (hpc : v.eval.host.BeforeDelivery) (pc : HostPc) (slot : Bool)
    (wrapper : Script) (hearly : ¬pc.BeforeDelivery)
    (hnotSent : ∀ failure, pc = .returned (.error failure) → failure.kind = .notSent →
      wrapper = .unsent) :
    { v with eval := { v.eval with host := pc, slot, wrapper } : View Nonce number }.Ok := by
  have hunsent := h.wrapper_unsent hpc
  have hfresh := h.fresh (by rw [hunsent]; nofun)
  exact { h with
    wrapper_unsent := fun hpc' => absurd hpc' hearly
    check_unsent := fun _ => h.check_unsent hpc.beforeCheck
    fresh := fun _ => hfresh
    verdict := fun hmem => by
      have hgone := (h.verdict hmem).2
      rw [hunsent] at hgone
      cases hgone
    notSent := fun failure heq hkind => .inl (hnotSent failure heq hkind) }

/-- The check is delivered, or its delivery fails. -/
theorem View.Ok.deliverCheck (hpc : v.eval.host = .checking) (armed : Bool) (check : Script) :
    { v with eval := { v.eval with host := .waiting armed, check } : View Nonce number }.Ok := by
  have hunsent := h.check_unsent (by rw [hpc]; trivial)
  exact { h with
    wrapper_unsent := nofun, check_unsent := nofun, notSent := nofun
    unchecked := fun _ => h.unchecked (by rw [hunsent]; nofun) }

theorem View.Ok.begin (hwrapper : v.eval.wrapper = .inFlight) :
    { v with
      live := true
      eval := { v.eval with
        wrapper := .gone, code := .running v.pages.length
        starts := v.eval.starts + 1 } : View Nonce number }.Ok := by
  obtain ⟨-, hsettled⟩ := h.fresh (by rw [hwrapper]; nofun)
  have hunsent : ¬v.eval.host.BeforeDelivery := fun hpc => by
    have hunsent := h.wrapper_unsent hpc
    rw [hwrapper] at hunsent
    cases hunsent
  have hverdict : .notRun ∉ v.eval.sent := fun hmem => by
    have hgone := (h.verdict hmem).2
    rw [hwrapper] at hgone
    cases hgone
  exact { h with
    wrapper_unsent := fun hpc => absurd hpc hunsent
    fresh := fun hgone => absurd rfl hgone
    armed_before := by
      rintro p rfl
      refine ⟨Nat.le_refl _, fun n hn => ?_⟩
      obtain ⟨q, hq, hn⟩ := List.getElem_of_mem (h.armed n hn)
      exact ⟨q, hq, by rw [List.getElem?_eq_getElem hq, hn]⟩
    starts := nofun
    running := fun _ _ => ⟨hsettled, fun _ => rfl⟩
    settled := fun p hp => by rcases hp with hp | hp <;> cases hp
    unchecked := nofun
    verdict := fun hmem => absurd hmem hverdict
    notSent := fun failure heq hkind => by
      have hcase := h.notSent failure heq hkind
      rw [hwrapper] at hcase
      rcases hcase with hcase | hcase
      · cases hcase
      · exact .inr hcase }

/-- The outcome of the code, the first time. -/
theorem View.Ok.settle {page : Nat} (hcode : v.eval.code = .running page)
    {outcome : Outcome number} (hran : outcome ≠ .notRun) :
    { v with
      live := false, settledHere := true, settled := true
      eval := { v.eval with code := .settled page outcome }.post (some outcome) :
        View Nonce number }.Ok := by
  have hsettled : CodePc.settled page outcome = .settling page ∨
      CodePc.settled page outcome = .ended page := by
    cases outcome <;> simp [CodePc.settled]
  have hnil := h.sent_nil (h.running page hcode).1
  have hbegun : CodePc.settled page outcome ≠ .notBegun := by
    rcases hsettled with hs | hs <;> rw [hs] <;> nofun
  have hwrapper : v.eval.wrapper = .gone := by
    by_contra hne
    rw [(h.fresh hne).1] at hcode
    cases hcode
  have hsent : ({ v.eval with code := .settled page outcome }.post (some outcome)).sent =
      [outcome] := by
    simp [Eval.post, hnil]
  exact { h with
    fresh := fun hne => absurd hwrapper hne
    armed_before := fun p hp => by
      refine h.armed_before p ?_
      rw [hcode]
      have hp : (CodePc.settled page outcome).BegunIn p := hp
      rcases hsettled with hs | hs <;> rwa [hs] at hp
    starts := fun hnot => absurd hnot hbegun
    running := fun p hp => by
      have hp : CodePc.settled page outcome = .running p := hp
      rcases hsettled with hs | hs <;> rw [hs] at hp <;> cases hp
    settled := fun _ _ => ⟨rfl, fun _ => rfl⟩
    unchecked := fun _ hnot => absurd hnot hbegun
    one := by rw [hsent]; exact Nat.le_refl 1
    sent_settled := fun _ => rfl
    verdict := fun hmem => by
      rw [hsent, List.mem_singleton] at hmem
      exact absurd hmem.symm hran
    mail := Eval.mail_post outcome h.mail
    received := fun body hbody => Eval.mem_sent_post outcome (h.received body hbody)
    notSent := fun failure heq hkind => by
      refine (h.notSent failure heq hkind).imp_right fun hmem => ?_
      rw [hnil] at hmem
      cases hmem }

/-- Code that settles again is over. -/
theorem View.Ok.ended {page : Nat} (hcode : v.eval.code = .settling page) :
    { v with eval := { v.eval with code := .ended page } : View Nonce number }.Ok := by
  have hbegun : v.eval.code ≠ .notBegun := by
    rw [hcode]
    nofun
  exact { h with
    fresh := fun hne => absurd (h.fresh hne).1 hbegun
    armed_before := fun p hp => h.armed_before p (by rw [hcode]; exact hp)
    starts := nofun
    running := nofun
    settled := fun p hp => by
      have hp : p = page := by
        rcases hp with hp | hp <;> cases hp
        rfl
      subst hp
      exact h.settled p (.inl hcode)
    unchecked := nofun
    verdict := fun hmem => absurd (h.verdict hmem).1 hbegun }

/-- A check that stays silent. -/
theorem View.Ok.checked (hcheck : v.eval.check = .inFlight) :
    { v with eval := { v.eval with check := .gone } : View Nonce number }.Ok :=
  { h with
    check_unsent := fun hpc => by
      have hunsent := h.check_unsent hpc
      rw [hcheck] at hunsent
      cases hunsent
    unchecked := fun hgone => absurd rfl hgone }

/-- A check that reports. -/
theorem View.Ok.notRun (hcheck : v.eval.check = .inFlight) (hwrapper : v.eval.wrapper = .gone)
    (hcode : v.eval.code = .notBegun) :
    { v with
      live := false, settledHere := true, settled := true
      eval := { v.eval with check := .gone }.post (some .notRun) : View Nonce number }.Ok := by
  have hnil := h.sent_nil (h.unchecked (by rw [hcheck]; nofun) hcode)
  have hsent : ({ v.eval with check := .gone }.post (some .notRun)).sent = [.notRun] := by
    simp [Eval.post, hnil]
  exact { h.checked hcheck with
    fresh := fun hne => absurd hwrapper hne
    running := fun p hp => by
      have hp : v.eval.code = .running p := hp
      rw [hcode] at hp
      cases hp
    settled := fun _ _ => ⟨rfl, fun _ => rfl⟩
    unchecked := fun hgone => absurd rfl hgone
    one := by rw [hsent]; exact Nat.le_refl 1
    sent_settled := fun _ => rfl
    verdict := fun _ => ⟨hcode, hwrapper⟩
    mail := Eval.mail_post .notRun h.mail
    received := fun body hbody => Eval.mem_sent_post .notRun (h.received body hbody)
    notSent := fun _ _ _ => .inr (by rw [hsent]; exact List.mem_singleton_self _) }

/-- A wrapper that is lost, or does not parse. -/
theorem View.Ok.loseWrapper (hwrapper : v.eval.wrapper = .inFlight) :
    { v with eval := { v.eval with wrapper := .gone } : View Nonce number }.Ok :=
  { h with
    wrapper_unsent := fun hpc => by
      have hunsent := h.wrapper_unsent hpc
      rw [hwrapper] at hunsent
      cases hunsent
    fresh := fun hgone => absurd rfl hgone
    verdict := fun hmem => ⟨(h.verdict hmem).1, rfl⟩
    notSent := fun failure heq hkind => by
      have hcase := h.notSent failure heq hkind
      rw [hwrapper] at hcase
      exact .inr (hcase.resolve_left nofun) }

/-- In a new page nothing of the eval is known. -/
theorem View.Ok.reload (nonce : Nonce) :
    { v with pages := v.pages ++ [nonce], live := false, settledHere := false :
      View Nonce number }.Ok := by
  have hlast {p : Nat} (hp : v.eval.code.BegunIn p) : p ≠ (v.pages ++ [nonce]).length := by
    have hle := (h.armed_before p hp).1
    rw [List.length_append, List.length_singleton]
    omega
  exact { h with
    answer := fun n hn => List.mem_append_left _ (h.answer n hn)
    armed := fun n hn => List.mem_append_left _ (h.armed n hn)
    armed_before := fun p hp => by
      obtain ⟨hle, harmed⟩ := h.armed_before p hp
      refine ⟨by rw [List.length_append]; omega, fun n hn => ?_⟩
      obtain ⟨q, hq, hn⟩ := harmed n hn
      exact ⟨q, hq, by rw [List.getElem?_append_left (by omega), hn]⟩
    running := fun p hp =>
      ⟨(h.running p hp).1, fun heq => absurd heq (hlast (by
        have hp : v.eval.code = .running p := hp
        rw [hp]
        rfl))⟩
    settled := fun p hp =>
      ⟨(h.settled p hp).1, fun heq => absurd heq (hlast (by
        have hp : v.eval.code = .settling p ∨ v.eval.code = .ended p := hp
        rcases hp with hp | hp <;> (rw [hp]; rfl)))⟩ }

end View

variable [DecidableEq Nonce] {parse : List Char → Option Value} {print : Value → List Char}

/-- A check that would report on code that began stays silent. -/
theorem Inv.check_cases (h : Inv s) {finishes : Bool}
    (hspaced : Spaced (s.history ++ [{ id := k, finishes }])) :
    (s.bridge.evalCheck k (s.evals k).armed : Option (Outcome number) × Bridge Id Nonce) =
        (none, s.bridge) ∨
      (s.bridge.evalCheck k (s.evals k).armed : Option (Outcome number) × Bridge Id Nonce) =
          (some .notRun, s.bridge.evalMarkDone k) ∧
        (s.evals k).code = .notBegun := by
  unfold Bridge.evalCheck
  split_ifs with hsilent
  · exact .inl rfl
  simp only [not_or, Decidable.not_not] at hsilent
  obtain ⟨harmed, hlive, hdone⟩ := hsilent
  refine .inr ⟨rfl, ?_⟩
  -- armed here, so code that began did so in this page, and one of the tables has the eval
  have hhere : ∀ p, (s.evals k).code.BegunIn p → p = s.pages.length := by
    intro p hp
    obtain ⟨hle, hbefore⟩ := (h.ok k).armed_before p hp
    obtain ⟨q, hq, hnonce⟩ := hbefore _ harmed
    have hcurrent := h.current
    have hlt : q < s.pages.length := (List.getElem?_eq_some_iff.mp hnonce).1
    have heq : q = s.page - 1 :=
      (List.getElem?_inj hlt h.pages).mp (hnonce.trans hcurrent.symm)
    have hle : p ≤ s.pages.length := hle
    rw [page] at heq
    omega
  cases hcode : (s.evals k).code with
  | notBegun => rfl
  | running p =>
      have hlive' := ((h.ok k).running p hcode).2 (hhere p (by rw [hcode]; rfl))
      exact absurd hlive' hlive
  | settling p =>
      have hlog := ((h.ok k).settled p (.inl hcode)).2 (hhere p (by rw [hcode]; rfl))
      exact absurd (h.has_of_log hspaced (of_decide_eq_true hlog)) hdone
  | ended p =>
      have hlog := ((h.ok k).settled p (.inr hcode)).2 (hhere p (by rw [hcode]; rfl))
      exact absurd (h.has_of_log hspaced (of_decide_eq_true hlog)) hdone

omit [DecidableEq Nonce] in
theorem Inv.reload (h : Inv s) {nonce : Nonce} (hnew : nonce ∉ s.pages) :
    Inv { s with
      bridge := .new Id nonce, pages := s.pages ++ [nonce], loaded := s.history.length } where
  pages := List.nodup_append.mpr ⟨h.pages, List.nodup_singleton nonce, by
    rintro n hn n' hn' rfl
    exact hnew (List.mem_singleton.mp hn' ▸ hn)⟩
  current := by simp [page, Bridge.new]
  loaded := Nat.le_refl _
  done := by
    rw [log, List.drop_length]
    exact EvalDone.tracks_empty
  once := h.once
  ok k := by
    have hview := (h.ok k).reload nonce
    simpa [view, log, finished, Bridge.new] using hview

theorem deliveryFailure_notSent {elapsed timeout error : String}
    (hkind : (deliveryFailure elapsed timeout error).kind = .notSent) :
    Script.failed error = .unsent := by
  unfold deliveryFailure at hkind
  unfold Script.failed
  split_ifs at hkind ⊢ with hmay
  · cases hkind
  · rfl
  · rfl

theorem giveUpFailure_kind (armed : Bool) (why : GiveUp) :
    (giveUpFailure armed why).kind = .aborted := by
  cases why <;> rfl

/-! ## What a run never takes back -/

/-- The outcomes sent stay sent, and a call that returned has returned. -/
structure Keeps (e e' : Eval Nonce number) : Prop where
  sent : e.sent <+: e'.sent
  returned : ∀ result, e.host = .returned result → e'.host = .returned result

omit [DecidableEq Id] [DecidableEq Nonce] in
theorem Keeps.refl (e : Eval Nonce number) : Keeps e e := ⟨List.prefix_refl _, fun _ h => h⟩

omit [DecidableEq Nonce] in
theorem keeps_set (h : Keeps (s.evals k) e) (j : Id) :
    Keeps (s.evals j) ((s.set k e).evals j) := by
  by_cases hj : j = k
  · subst hj
    simpa only [Evals.set, Function.update_self] using h
  · simpa only [Evals.set, Function.update_of_ne hj] using .refl _

omit [DecidableEq Id] [DecidableEq Nonce] in
/-- A step that moves a call on from where it had not returned. -/
theorem keeps_host {e' : Eval Nonce number} {pc : HostPc} (hpc : e.host = pc)
    (hreturned : ∀ result, pc ≠ .returned result) (hsent : e'.sent = e.sent) : Keeps e e' :=
  ⟨hsent ▸ List.prefix_refl _, fun result h => absurd (hpc ▸ h) (hreturned result)⟩

omit [DecidableEq Id] [DecidableEq Nonce] in
theorem keeps_rest {e' : Eval Nonce number} (hhost : e'.host = e.host)
    (hsent : e.sent <+: e'.sent) : Keeps e e' :=
  ⟨hsent, fun _ h => hhost.trans h⟩

theorem Step.keeps {t : Evals Id Nonce number} (hstep : Step parse print s t) (j : Id) :
    Keeps (s.evals j) (t.evals j) := by
  cases hstep with
  | refuse h
  | probe h
  | probeFails _ _ _ _ h
  | probed h _
  | tooMany h
  | reserve h
  | late _ _ h
  | deliver h
  | deliveryFails _ _ _ h
  | deliverCheck h
  | checkFails _ h
  | receive h _
  | giveUp _ h _ =>
      refine keeps_set ?_ j
      exact keeps_host h nofun rfl
  | drop h _ =>
      refine keeps_set ?_ j
      exact keeps_host rfl h rfl
  | answer _
  | accepted _
  | loseProbe _
  | loseWrapper _
  | loseCheck _
  | callback _ _
  | loseMail _ =>
      refine keeps_set ?_ j
      exact keeps_rest rfl (List.prefix_refl _)
  | check _ _
  | settle _ _ _
  | settleAgain _ _ =>
      refine keeps_set ?_ j
      exact keeps_rest rfl (List.prefix_append _ _)
  | begin _ =>
      refine keeps_set (keeps_rest ?_ ?_) j
      · split_ifs <;> rfl
      · split_ifs <;> exact List.prefix_append _ _
  | reload _ _ => exact .refl _

theorem Reaches.keeps {t : Evals Id Nonce number} (hrun : Reaches parse print s t) (j : Id) :
    Keeps (s.evals j) (t.evals j) := by
  induction hrun with
  | refl => exact .refl _
  | tail _ hstep ih =>
      exact ⟨ih.sent.trans (hstep.keeps j).sent, fun result h =>
        (hstep.keeps j).returned result (ih.returned result h)⟩

theorem Step.history {t : Evals Id Nonce number} (hstep : Step parse print s t) :
    s.history <+: t.history := by
  cases hstep <;> first | exact List.prefix_refl _ | exact List.prefix_append _ _

/-! ## Every step keeps the invariant -/

variable {limit : Nat}
  (hparse : ∀ t v d, Text number t v d → parse t = if d ≤ limit then some v else none)
  (hlimit : 0 < limit)

include hparse hlimit

/-- A received outcome is `NotSent` only if it is the not-run report. -/
theorem receivedResult_notSent {outcome : Outcome number} {failure : EvalFailure}
    (h : receivedResult parse print (outcomeBody outcome) = .error failure)
    (hkind : failure.kind = .notSent) : outcome = .notRun := by
  unfold receivedResult at h
  dsimp only at h
  split_ifs at h
  · cases h
    cases hkind
  · exact unwrap_notSent hparse hlimit h hkind

theorem Inv.step (h : Inv s) {t : Evals Id Nonce number} (hstep : Step parse print s t)
    (hspaced : Spaced t.history) : Inv t := by
  have hearly {k : Id} {pc : HostPc} (hpc : (s.evals k).host = pc) (h' : pc.BeforeDelivery) :
      (s.view k).eval.host.BeforeDelivery := hpc ▸ h'
  cases hstep with
  | @refuse k hpc => exact h.set ((h.ok k).return_early (hearly hpc trivial) _ _)
  | @probeFails k _ _ _ _ hpc => exact h.set ((h.ok k).return_early (hearly hpc trivial) _ _)
  | @tooMany k hpc => exact h.set ((h.ok k).return_early (hearly hpc trivial) _ _)
  | @late k _ _ hpc => exact h.set ((h.ok k).return_early (hearly hpc trivial) _ _)
  | @probe k hpc => exact h.set ((h.ok k).goOn (hearly hpc trivial) _ _ _ nofun)
  | @probed k nonce hpc hanswer => exact h.set ((h.ok k).probed (hearly hpc trivial) hanswer)
  | @reserve k hpc => exact h.set ((h.ok k).goOn (hearly hpc trivial) _ _ _ nofun)
  | @deliver k hpc =>
      exact h.set ((h.ok k).deliver (hearly hpc trivial) .checking _ .inFlight (by nofun) nofun)
  | @deliveryFails k _ _ error hpc =>
      refine h.set ((h.ok k).deliver (hearly hpc trivial) _ _ (.failed error) (by nofun) ?_)
      rintro failure ⟨⟩ hkind
      exact deliveryFailure_notSent hkind
  | @deliverCheck k hpc => exact h.set ((h.ok k).deliverCheck hpc _ _)
  | @checkFails k _ hpc => exact h.set ((h.ok k).deliverCheck hpc _ _)
  | @receive k armed raw hpc hr =>
      obtain ⟨outcome, hsent, rfl⟩ := (h.ok k).received raw hr
      exact h.set { h.ok k with
        wrapper_unsent := nofun, check_unsent := nofun
        notSent := fun failure heq hkind => by
          injection heq with heq
          rw [receivedResult_notSent hparse hlimit heq hkind] at hsent
          exact .inr hsent }
  | @giveUp k armed why hpc hr =>
      exact h.set { h.ok k with
        wrapper_unsent := nofun, check_unsent := nofun
        notSent := by
          rintro failure ⟨⟩ hkind
          rw [giveUpFailure_kind] at hkind
          cases hkind }
  | @drop k _ _ =>
      exact h.set { h.ok k with
        wrapper_unsent := nofun, check_unsent := nofun, notSent := nofun }
  | @answer k _ =>
      exact h.set { h.ok k with
        answer := by
          rintro n ⟨⟩
          exact List.mem_of_getElem? h.current }
  | @begin k hwrapper =>
      exact h.begin ((h.ok k).fresh (by rw [view, hwrapper]; nofun)).2 ((h.ok k).begin hwrapper)
  | @check k hcheck hwrapper =>
      rcases h.check_cases (k := k) hspaced with hsilent | ⟨hreport, hcode⟩
      · rw [hsilent]
        exact h.silent ((h.ok k).checked hcheck)
      · rw [hreport]
        exact h.finish ((h.ok k).unchecked (by rw [view, hcheck]; nofun) hcode) .notRun
          ((h.ok k).notRun hcheck hwrapper hcode)
  | @settle k outcome hcode hran =>
      have hsettled := ((h.ok k).running s.page hcode).1
      have hsettle : s.bridge.evalSettle k outcome =
          (some outcome, s.bridge.evalMarkDone k) := by
        rw [Bridge.evalSettle, h.not_has hsettled, if_neg Bool.false_ne_true]
      rw [hsettle]
      exact h.finish hsettled outcome ((h.ok k).settle hcode hran)
  | @settleAgain k message hcode =>
      have hlog := ((h.ok k).settled s.page (.inl hcode)).2 rfl
      have hsettle : s.bridge.evalSettle k (.error message : Outcome number) =
          (none, s.bridge) := by
        rw [Bridge.evalSettle, h.has_of_log hspaced (of_decide_eq_true hlog), if_pos rfl]
      rw [hsettle]
      exact h.silent ((h.ok k).ended hcode)
  | @accepted k hcode => exact h.set ((h.ok k).ended hcode)
  | @reload nonce hnew => exact h.reload hnew
  | @loseProbe k _ => exact h.set { h.ok k with }
  | @loseWrapper k hwrapper => exact h.set ((h.ok k).loseWrapper hwrapper)
  | @loseCheck k hcheck => exact h.set ((h.ok k).checked hcheck)
  | @callback k body before after hm _ =>
      exact h.set { h.ok k with
        mail := fun b hb => (h.ok k).mail b (by
          have hm : (s.view k).eval.mail = before ++ body :: after := hm
          rw [hm]
          exact List.mem_append.mpr ((List.mem_append.mp hb).imp_right (List.mem_cons_of_mem _)))
        received := by
          rintro b ⟨⟩
          exact (h.ok k).mail body (by
            have hm : (s.view k).eval.mail = before ++ body :: after := hm
            rw [hm]
            exact List.mem_append_right _ List.mem_cons_self) }
  | @loseMail k body before after hm =>
      exact h.set { h.ok k with
        mail := fun b hb => (h.ok k).mail b (by
          have hm : (s.view k).eval.mail = before ++ body :: after := hm
          rw [hm]
          exact List.mem_append.mpr ((List.mem_append.mp hb).imp_right (List.mem_cons_of_mem _))) }

theorem Inv.reaches (h : Inv s) {t : Evals Id Nonce number} (hrun : Reaches parse print s t)
    (hspaced : Spaced t.history) : Inv t := by
  induction hrun with
  | refl => exact h
  | tail _ hstep ih =>
      exact (ih (hspaced.of_prefix hstep.history)).step hparse hlimit hstep hspaced

/-! ## What is guaranteed -/

/-- What holds after a run, and in every state it may go on to. -/
structure Guarantees (parse : List Char → Option Value) (print : Value → List Char)
    (s : Evals Id Nonce number) : Prop where
  /-- The page sends at most one outcome for an id. -/
  one : ∀ k, (s.evals k).sent.length ≤ 1
  /-- An eval whose not-run report was sent never begins its code. -/
  notRun : ∀ k, .notRun ∈ (s.evals k).sent →
    ∀ t, Reaches parse print s t → Spaced t.history → (t.evals k).starts = 0
  /-- Code about which a call returned `NotSent` has not begun and never begins. -/
  notSent : ∀ k failure, (s.evals k).host = .returned (.error failure) →
    failure.kind = .notSent →
    ∀ t, Reaches parse print s t → Spaced t.history → (t.evals k).starts = 0

theorem evals_guarantees {nonce : Nonce} (hrun : Reaches parse print (init nonce) s)
    (hspaced : Spaced s.history) : Guarantees parse print s := by
  have hinv : Inv s := (inv_init nonce).reaches hparse hlimit hrun hspaced
  constructor
  · exact fun k => (hinv.ok k).one
  · intro k hsent t hst ht
    have hk := (hinv.reaches hparse hlimit hst ht).ok k
    exact hk.starts (hk.verdict ((hst.keeps k).sent.subset hsent)).1
  · intro k failure hpc hkind t hst ht
    have hk := (hinv.reaches hparse hlimit hst ht).ok k
    rcases hk.notSent failure ((hst.keeps k).returned _ hpc) hkind with hunsent | hsent
    · exact hk.starts (hk.fresh (by rw [hunsent]; nofun)).1
    · exact hk.starts (hk.verdict hsent).1

omit hparse hlimit in
/-- Few evals are always far enough apart. -/
theorem spaced_of_bool (history : List (PageStep Bool)) : Spaced history := by
  intro before between after p q _ _ others hnodup _
  have hle := hnodup.length_le_card
  have hcard : Fintype.card Bool = 2 := rfl
  have hcap : 2 < evalDoneCap := by decide
  omega

omit hparse hlimit in
theorem evals_guarantees_of_parseError :
    let parse := read oneDigit 127
    let print := Core.Json.print oneDigitPrinter
    ∃ s : Evals Bool Nat oneDigit, Reaches parse print (init 0) s ∧
      (s.evals true).sent = [.notRun] ∧ Guarantees parse print s := by
  intro parse print
  have run : Reaches parse print (init 0) (init 0 : Evals Bool Nat oneDigit) := .refl
  have run := run.tail (.probe (k := true) rfl)
  have run := run.tail (.answer (k := true) rfl)
  have run := run.tail (.probed (k := true) rfl rfl)
  have run := run.tail (.reserve (k := true) rfl)
  have run := run.tail (.deliver (k := true) rfl)
  have run := run.tail (.deliverCheck (k := true) rfl)
  have run := run.tail (.loseWrapper (k := true) rfl)
  have run := run.tail (.check (k := true) rfl rfl)
  exact ⟨_, run, rfl,
    evals_guarantees (fun _ _ _ h => read_of_text h 127) (by decide) run (spaced_of_bool _)⟩

end Evals

end Victauri.Plugin.Mcp
