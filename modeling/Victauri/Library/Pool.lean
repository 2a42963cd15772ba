import Mathlib.Logic.Function.Basic
import Victauri.Library.Program

/-!
# Programs that run together

Any number of threads run programs over one environment.  A thread is given an input, makes the
calls of the program for it one at a time, in any order with those of the others, and is done with
the result or is dropped; the environment may move by itself at any time.

* `Pool.only` says of every call that is ever about to be made what holds of the calls of the
  programs.
* `Pool.purge` takes the threads with hidden inputs out of a run: if the calls they make leave what
  the others see as it is, the others run as they did, to the same results.
-/

namespace Victauri.Library.Program

variable {Op Op' : Type → Type} {α : Type}

/-- The program over a larger interface. -/
def lift (f : ∀ {β : Type}, Op β → Op' β) : Program Op α → Program Op' α
  | .done a => .done a
  | .call op next => .call (f op) fun b => (next b).lift f

/-- Every call that the program may come to make is of this kind. -/
def Only (P : ∀ {β : Type}, Op β → Prop) : Program Op α → Prop
  | .done _ => True
  | .call op next => P op ∧ ∀ b, (next b).Only P

section Only

variable {P Q : ∀ {β : Type}, Op β → Prop} {p : Program Op α}

theorem Only.imp (h : p.Only P) (himp : ∀ {β : Type} (op : Op β), P op → Q op) : p.Only Q := by
  induction p with
  | done a => trivial
  | call op next ih => exact ⟨himp op h.1, fun b => ih b (h.2 b)⟩

theorem Only.map {β : Type} (f : α → β) (h : p.Only P) : (p.map f).Only P := by
  induction p with
  | done a => trivial
  | call op next ih => exact ⟨h.1, fun b => ih b (h.2 b)⟩

theorem Only.lift {p : Program Op' α} (f : ∀ {β : Type}, Op' β → Op β)
    (hP : ∀ {β : Type} (op : Op' β), P (f op)) : (p.lift f).Only P := by
  induction p with
  | done a => trivial
  | call op next ih => exact ⟨hP op, ih⟩

end Only

/-- The programs that are under way, each with the input it is for. -/
structure Pool (Op : Type → Type) (σ Thread ι α : Type) where
  env : σ
  procs : Thread → Option (ι × Program Op α)

namespace Pool

variable {σ Thread ι : Type}

inductive Action (Thread ι α : Type) where
  | start (t : Thread) (i : ι)
  | act (t : Thread) (i : ι)
  | finish (t : Thread) (i : ι) (a : α)
  | drop (t : Thread) (i : ι)
  | drift

def Action.input : Action Thread ι α → Option ι
  | .start _ i | .act _ i | .finish _ i _ | .drop _ i => some i
  | .drift => none

/-- No thread is running. -/
def idle (env : σ) : Pool Op σ Thread ι α := { env, procs := fun _ => none }

variable [DecidableEq Thread]

def put (s : Pool Op σ Thread ι α) (t : Thread) (p : Option (ι × Program Op α)) :
    Pool Op σ Thread ι α :=
  { s with procs := Function.update s.procs t p }

variable (main : ι → Program Op α) (perform : {β : Type} → Op β → σ → β × σ)
  (drift : σ → σ → Prop)

inductive Step : Pool Op σ Thread ι α → Action Thread ι α → Pool Op σ Thread ι α → Prop
  | start {s t i} (h : s.procs t = none) : Step s (.start t i) (s.put t (some (i, main i)))
  | act {s t i} {β : Type} {op : Op β} {next : β → Program Op α}
      (h : s.procs t = some (i, .call op next)) :
      Step s (.act t i)
        { s.put t (some (i, next (perform op s.env).1)) with env := (perform op s.env).2 }
  | finish {s t i a} (h : s.procs t = some (i, .done a)) : Step s (.finish t i a) (s.put t none)
  | drop {s t i p} (h : s.procs t = some (i, p)) : Step s (.drop t i) (s.put t none)
  | drift {s env} (h : drift s.env env) : Step s .drift { s with env := env }

variable {main perform drift} {s s' q : Pool Op σ Thread ι α} {a : Action Thread ι α}

/-- What holds of the program that is put and of all that are there holds of all. -/
theorem forall_put {P : Thread → ι → Program Op α → Prop} {t : Thread}
    {p : Option (ι × Program Op α)} (h : ∀ t i p, s.procs t = some (i, p) → P t i p)
    (hp : ∀ i p', p = some (i, p') → P t i p') :
    ∀ t' i p', (s.put t p).procs t' = some (i, p') → P t' i p' := by
  intro t' i p' hat
  change Function.update s.procs t p t' = some (i, p') at hat
  by_cases ht : t' = t
  · rw [ht, Function.update_self] at hat
    exact ht ▸ hp i p' hat
  · rw [Function.update_of_ne ht] at hat
    exact h t' i p' hat

/-- The calls that are left of a program are among its calls. -/
theorem Step.only {P : ι → ∀ {β : Type}, Op β → Prop} (hmain : ∀ i, (main i).Only (P i))
    (h : Step main perform drift s a s') (hs : ∀ t i p, s.procs t = some (i, p) → p.Only (P i)) :
    ∀ t i p, s'.procs t = some (i, p) → p.Only (P i) := by
  cases h with
  | start ht =>
    refine forall_put hs ?_
    rintro i p ⟨⟩
    exact hmain _
  | act ht =>
    refine @forall_put _ _ _ _ _ _ s (fun _ i p => p.Only (P i)) _ _ hs ?_
    rintro i p ⟨⟩
    exact (hs _ _ _ ht).2 _
  | finish | drop =>
    refine forall_put hs ?_
    rintro i p ⟨⟩
  | drift => exact hs

theorem only {P : ι → ∀ {β : Type}, Op β → Prop} {env : σ} {as : List (Action Thread ι α)}
    (hmain : ∀ i, (main i).Only (P i)) (h : Run (Step main perform drift) (idle env) as s) :
    ∀ t i p, s.procs t = some (i, p) → p.Only (P i) := by
  refine @Run.invariant _ _ _ (fun s => ∀ t i p, s.procs t = some (i, p) → p.Only (P i))
    (fun _ _ _ hs hstep => hstep.only hmain hs) _ _ _ h ?_
  intro t i p hnone
  cases hnone

/-! ## Taking threads out -/

section Purge

variable (shown : ι → Bool) (same : σ → σ → Prop)

/-- The pool without its hidden threads. -/
structure Purged (s q : Pool Op σ Thread ι α) : Prop where
  env : same s.env q.env
  procs : ∀ t, q.procs t = (s.procs t).filter fun p => shown p.1

variable {shown same}

theorem filter_shown {i : ι} (hi : shown i = true) (p : Program Op α) :
    (some (i, p)).filter (fun p => shown p.1) = some (i, p) :=
  if_pos hi

theorem filter_hidden {i : ι} (hi : shown i = false) (p : Program Op α) :
    (some (i, p)).filter (fun p => shown p.1) = none :=
  if_neg (Bool.eq_false_iff.mp hi)

theorem Purged.put {t : Thread} {p : Option (ι × Program Op α)} (h : Purged shown same s q) :
    Purged shown same (s.put t p) (q.put t (p.filter fun p => shown p.1)) where
  env := h.env
  procs t' := by
    change Function.update q.procs t _ t' = (Function.update s.procs t p t').filter _
    by_cases ht : t' = t
    · rw [ht, Function.update_self, Function.update_self]
    · rw [Function.update_of_ne ht, Function.update_of_ne ht]
      exact h.procs t'

theorem Purged.put_some {t : Thread} {i : ι} {p : Program Op α} (h : Purged shown same s q)
    (hi : shown i = true) :
    Purged shown same (s.put t (some (i, p))) (q.put t (some (i, p))) := by
  have hput := h.put (t := t) (p := some (i, p))
  rwa [filter_shown hi] at hput

/-- A hidden step leaves what the others see. -/
theorem Purged.hide {t : Thread} {p : Option (ι × Program Op α)} (h : Purged shown same s q)
    (hs : (s.procs t).filter (fun p => shown p.1) = none)
    (hp : p.filter (fun p => shown p.1) = none) : Purged shown same (s.put t p) q := by
  refine ⟨h.env, fun t' => ?_⟩
  change q.procs t' = (Function.update s.procs t p t').filter _
  by_cases ht : t' = t
  · rw [ht, Function.update_self, h.procs, hs, hp]
  · rw [Function.update_of_ne ht]
    exact h.procs t'

omit [DecidableEq Thread] in
theorem Purged.visible {t : Thread} {i : ι} {p : Program Op α} (h : Purged shown same s q)
    (ht : s.procs t = some (i, p)) (hi : shown i = true) : q.procs t = some (i, p) := by
  rw [h.procs, ht, filter_shown hi]

variable {quiet seen : ∀ {β : Type}, Op β → Prop}

/-- A step with a hidden input leaves the purged pool, and any other is a step of it. -/
theorem Purged.step
    (hquiet : ∀ {β : Type} {op : Op β} {u v : σ}, quiet op → same u v → same (perform op u).2 v)
    (hseen : ∀ {β : Type} {op : Op β} {u v : σ}, seen op → same u v →
      (perform op u).1 = (perform op v).1 ∧ same (perform op u).2 (perform op v).2)
    (hdrift : ∀ {u u' v : σ}, same u v → drift u u' → ∃ v', drift v v' ∧ same u' v')
    (hs : ∀ t i p, s.procs t = some (i, p) →
      (shown i = false → p.Only quiet) ∧ (shown i = true → p.Only seen))
    (h : Purged shown same s q) (hstep : Step main perform drift s a s') :
    (a.input.all shown = false ∧ Purged shown same s' q) ∨
      a.input.all shown = true ∧
        ∃ q', Step main perform drift q a q' ∧ Purged shown same s' q' := by
  cases hstep with
  | @start t i ht =>
    have hnone : (s.procs t).filter (fun p => shown p.1) = none := by
      rw [ht]
      rfl
    cases hi : shown i with
    | false => exact .inl ⟨hi, h.hide hnone (filter_hidden hi _)⟩
    | true => exact .inr ⟨hi, _, .start ((h.procs t).trans hnone), h.put_some hi⟩
  | @act t i β op next ht =>
    have honly := hs t i _ ht
    cases hi : shown i with
    | false =>
      have hhide := h.hide (t := t) (by rw [ht, filter_hidden hi])
        (filter_hidden hi (next (perform op s.env).1))
      exact .inl ⟨hi, hquiet (honly.1 hi).1 h.env, hhide.procs⟩
    | true =>
      obtain ⟨hanswer, henv⟩ := hseen (honly.2 hi).1 h.env
      refine .inr ⟨hi, _, .act (h.visible ht hi), henv, ?_⟩
      rw [hanswer]
      exact (h.put_some hi).procs
  | @finish t i b ht =>
    cases hi : shown i with
    | false => exact .inl ⟨hi, h.hide (by rw [ht, filter_hidden hi]) rfl⟩
    | true => exact .inr ⟨hi, _, .finish (h.visible ht hi), h.put⟩
  | @drop t i p ht =>
    cases hi : shown i with
    | false => exact .inl ⟨hi, h.hide (by rw [ht, filter_hidden hi]) rfl⟩
    | true => exact .inr ⟨hi, _, .drop (h.visible ht hi), h.put⟩
  | drift hmove =>
    obtain ⟨v, hv, hsame⟩ := hdrift h.env hmove
    exact .inr ⟨rfl, _, .drift hv, hsame, h.procs⟩

/-- A run without the actions of its hidden threads is a run. -/
theorem purge
    (hquiet : ∀ {β : Type} {op : Op β} {u v : σ}, quiet op → same u v → same (perform op u).2 v)
    (hseen : ∀ {β : Type} {op : Op β} {u v : σ}, seen op → same u v →
      (perform op u).1 = (perform op v).1 ∧ same (perform op u).2 (perform op v).2)
    (hdrift : ∀ {u u' v : σ}, same u v → drift u u' → ∃ v', drift v v' ∧ same u' v')
    (hhidden : ∀ i, shown i = false → (main i).Only quiet)
    (hshown : ∀ i, shown i = true → (main i).Only seen)
    {env env' : σ} (hsame : same env env') {as : List (Action Thread ι α)}
    (h : Run (Step main perform drift) (idle env) as s) :
    ∃ q, Run (Step main perform drift) (idle env') (as.filter fun a => a.input.all shown) q ∧
      Purged shown same s q := by
  have hkind (i : ι) : (main i).Only fun {β} (op : Op β) =>
      (shown i = false → quiet op) ∧ (shown i = true → seen op) := by
    cases hi : shown i with
    | false =>
      exact (hhidden i hi).imp fun op hop =>
        ⟨fun _ => hop, fun htrue => absurd htrue Bool.false_ne_true⟩
    | true =>
      exact (hshown i hi).imp fun op hop =>
        ⟨fun hfalse => absurd hfalse.symm Bool.false_ne_true, fun _ => hop⟩
  refine Run.snocInduction (motive := fun as s => ∃ q, Run (Step main perform drift) (idle env')
    (as.filter fun a => a.input.all shown) q ∧ Purged shown same s q) ?_ ?_ h
  · exact ⟨_, .nil _, hsame, fun _ => rfl⟩
  · rintro as s a s' hrun ⟨q, hq, hpurged⟩ hstep
    have hs : ∀ t i p, s.procs t = some (i, p) →
        (shown i = false → p.Only quiet) ∧ (shown i = true → p.Only seen) := by
      intro t i p hat
      have honly := only hkind hrun t i p hat
      exact ⟨fun hi => honly.imp fun op hop => hop.1 hi,
        fun hi => honly.imp fun op hop => hop.2 hi⟩
    rw [List.filter_append, List.filter_cons, List.filter_nil]
    rcases hpurged.step hquiet hseen hdrift hs hstep with
      ⟨hgone, hsame'⟩ | ⟨hstays, q', hq', hsame'⟩
    · rw [if_neg (Bool.eq_false_iff.mp hgone), List.append_nil]
      exact ⟨q, hq, hsame'⟩
    · rw [if_pos hstays]
      exact ⟨q', hq.snoc hq', hsame'⟩

end Purge

end Pool

end Victauri.Library.Program
