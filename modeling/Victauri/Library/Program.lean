import Mathlib.Logic.Relation
import Victauri.Library.Run

/-!
# Programs that call an environment

A program over an interface of calls either is done or makes a call and goes on with the answer.
`Trace` runs it against any answers at all; `Wins` against an environment with a state that may
move by itself between the calls.
-/

namespace Victauri.Library

inductive Program (Op : Type → Type) (α : Type) : Type 1 where
  | done (a : α)
  | call {β : Type} (op : Op β) (next : β → Program Op α)

namespace Program

variable {Op : Type → Type} {α : Type}

/-- The result, as a function of it. -/
def map {β : Type} (f : α → β) : Program Op α → Program Op β
  | .done a => .done (f a)
  | .call op next => .call op fun b => (next b).map f

/-- A call with its answer. -/
structure Exchange (Op : Type → Type) : Type 1 where
  Answer : Type
  op : Op Answer
  answer : Answer

/-- The calls of a run, with what each was answered, and its result. -/
inductive Trace : Program Op α → List (Exchange Op) → α → Prop
  | done (a : α) : Trace (.done a) [] a
  | call {β : Type} {op : Op β} {next : β → Program Op α} (b : β) {t : List (Exchange Op)} {a : α} :
      Trace (next b) t a → Trace (.call op next) (⟨β, op, b⟩ :: t) a

theorem Trace.of_done {a b : α} {t : List (Exchange Op)}
    (h : Trace (.done a : Program Op α) t b) : t = [] ∧ a = b := by
  cases h
  exact ⟨rfl, rfl⟩

theorem Trace.of_call {β : Type} {op : Op β} {next : β → Program Op α}
    {t : List (Exchange Op)} {a : α} (h : Trace (.call op next) t a) :
    ∃ b rest, t = ⟨β, op, b⟩ :: rest ∧ Trace (next b) rest a := by
  cases h with
  | call b h => exact ⟨b, _, rfl, h⟩

theorem Trace.of_map {β : Type} {f : α → β} {p : Program Op α} {t : List (Exchange Op)} {b : β}
    (h : Trace (p.map f) t b) : ∃ a, b = f a ∧ Trace p t a := by
  induction p generalizing t with
  | done a =>
      obtain ⟨rfl, rfl⟩ := h.of_done
      exact ⟨a, rfl, .done a⟩
  | call op next ih =>
      obtain ⟨answer, rest, rfl, hrest⟩ := h.of_call
      obtain ⟨a, ha, htrace⟩ := ih answer hrest
      exact ⟨a, ha, .call answer htrace⟩

/-! ## An environment with a state -/

section Environment

variable {σ : Type} (perform : {β : Type} → Op β → σ → β × σ) (drift : σ → σ → Prop)

/-- The program ends with `goal` within so many calls, however the state drifts between them. -/
def Wins (goal : α) : Nat → σ → Program Op α → Prop
  | _, _, .done a => a = goal
  | 0, _, .call _ _ => False
  | n + 1, s, .call op next =>
      ∀ s', Relation.ReflTransGen drift s s' →
        Wins goal n (perform op s').2 (next (perform op s').1)

/-- Whose move it is: the program's, or that of the state by itself. -/
inductive Mover where
  | program
  | state
  deriving DecidableEq

inductive Move : σ × Program Op α → Mover → σ × Program Op α → Prop
  | program {s : σ} {β : Type} {op : Op β} {next : β → Program Op α} :
      Move (s, .call op next) .program ((perform op s).2, next (perform op s).1)
  | state {s t : σ} {p : Program Op α} : drift s t → Move (s, p) .state (t, p)

/-- The program, run while nothing else moves, ends so. -/
inductive Alone : σ → Program Op α → α → Prop
  | done (s : σ) (a : α) : Alone s (.done a) a
  | call {s : σ} {β : Type} {op : Op β} {next : β → Program Op α} {a : α} :
      Alone (perform op s).2 (next (perform op s).1) a → Alone s (.call op next) a

variable {perform drift} {goal : α} {s t : σ} {p q : Program Op α}

theorem Wins.of_drift {n : Nat} (h : Wins perform drift goal n s p)
    (hdrift : Relation.ReflTransGen drift s t) : Wins perform drift goal n t p := by
  cases p with
  | done a => cases n <;> exact h
  | call op next =>
      cases n with
      | zero => exact h
      | succ n => exact fun s' hs' => h s' (hdrift.trans hs')

theorem Wins.mono {n m : Nat} (h : Wins perform drift goal n s p) (hle : n ≤ m) :
    Wins perform drift goal m s p := by
  induction n generalizing m s p with
  | zero =>
      cases p with
      | done a => cases m <;> exact h
      | call op next => exact h.elim
  | succ n ih =>
      obtain ⟨k, rfl⟩ : ∃ k, m = k + 1 := ⟨m - 1, by omega⟩
      cases p with
      | done a => exact h
      | call op next => exact fun s' hs' => ih (h s' hs') (by omega)

/-- The rule for a call, from what no drift changes. -/
theorem Wins.call {Φ : σ → Prop} {n : Nat} {β : Type} {op : Op β} {next : β → Program Op α}
    (hstable : ∀ s t, drift s t → Φ s → Φ t) (hs : Φ s)
    (hnext : ∀ s', Φ s' → Wins perform drift goal n (perform op s').2 (next (perform op s').1)) :
    Wins perform drift goal (n + 1) s (.call op next) := by
  intro s' hs'
  refine hnext s' ?_
  induction hs' with
  | refl => exact hs
  | tail _ hlast ih => exact hstable _ _ hlast ih

theorem Wins.done {n : Nat} {a : α} (h : Wins perform drift goal n s (.done a)) : a = goal := by
  cases n <;> exact h

/-- In a run of a program that wins, what is left wins with the calls that are left. -/
theorem Wins.run {n : Nat} {movers : List Mover} (h : Wins perform drift goal n s p)
    (hrun : Run (Move perform drift) (s, p) movers (t, q)) :
    movers.count .program ≤ n ∧
      Wins perform drift goal (n - movers.count .program) t q := by
  generalize hfrom : (s, p) = start at hrun
  generalize hto : (t, q) = stop at hrun
  induction hrun generalizing n s p with
  | nil =>
      cases hfrom
      cases hto
      exact ⟨Nat.zero_le n, h⟩
  | cons hstep hrest ih =>
      subst hfrom
      cases hstep with
      | program =>
          cases n with
          | zero => exact h.elim
          | succ n =>
              obtain ⟨hle, hnext⟩ := ih (h s .refl) rfl hto
              rw [List.count_cons_self, Nat.add_sub_add_right]
              exact ⟨Nat.succ_le_succ hle, hnext⟩
      | state hdrift =>
          obtain ⟨hle, hnext⟩ := ih (h.of_drift (.single hdrift)) rfl hto
          rw [List.count_cons_of_ne (by decide)]
          exact ⟨hle, hnext⟩

variable (perform drift) in
/-- In every run the program makes at most so many calls, and is over with `goal` only. -/
def Ends (goal : α) (n : Nat) (s : σ) (p : Program Op α) : Prop :=
  ∀ movers t q, Run (Move perform drift) (s, p) movers (t, q) →
    movers.count .program ≤ n ∧ ∀ a, q = .done a → a = goal

theorem Wins.ends {n : Nat} (h : Wins perform drift goal n s p) :
    Ends perform drift goal n s p := by
  intro movers t q hrun
  obtain ⟨hle, hleft⟩ := h.run hrun
  refine ⟨hle, fun a ha => ?_⟩
  subst ha
  exact hleft.done

variable (drift) in
theorem Alone.run {a : α} (h : Alone perform s p a) :
    ∃ movers t, Run (Move perform drift) (s, p) movers (t, .done a) := by
  induction h with
  | done s a => exact ⟨[], s, .nil _⟩
  | call _ ih =>
      obtain ⟨movers, t, hrun⟩ := ih
      exact ⟨.program :: movers, t, .cons .program hrun⟩

/-- A program that may be run to another end, after the state has moved, does not end so. -/
theorem Alone.not_ends {n : Nat} {a : α} (h : Alone perform t p a)
    (hdrift : Relation.ReflTransGen drift s t) (hne : a ≠ goal) :
    ¬ Ends perform drift goal n s p := by
  intro hends
  induction hdrift using Relation.ReflTransGen.head_induction_on with
  | refl =>
      obtain ⟨movers, u, hrun⟩ := h.run drift
      exact hne ((hends movers u _ hrun).2 a rfl)
  | head hfirst _ ih =>
      refine ih fun movers u q hrun => ?_
      obtain ⟨hle, hgoal⟩ := hends _ u q (.cons (.state hfirst) hrun)
      rw [List.count_cons_of_ne (by decide)] at hle
      exact ⟨hle, hgoal⟩

end Environment

end Program

end Victauri.Library
