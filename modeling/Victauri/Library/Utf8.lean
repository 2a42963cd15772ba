import Mathlib.Data.List.Basic

/-!
# Lossy UTF-8

Decoding bytes as UTF-8 with each maximal invalid part replaced by U+FFFD, as a machine that
takes one byte at a time.  Decoding in parts is decoding the whole exactly where the machine is
between characters at the cut.
-/

namespace Utf8

/-- Between characters, or within one: the continuation bytes still owed, what the next one must
lie between, and the code point so far. -/
inductive State where
  | start
  | within (owed : Nat) (low high : UInt8) (code : Nat)
  deriving DecidableEq

def replacement : Char := '\uFFFD'

/-- A character's first byte. -/
def first (b : UInt8) : List Char × State :=
  let lead := b.toNat
  if lead < 0x80 then ([Char.ofNat lead], .start)
  else if lead < 0xC2 then ([replacement], .start)
  else if lead < 0xE0 then ([], .within 1 0x80 0xBF (lead - 0xC0))
  else if lead < 0xF0 then
    -- neither overlong nor a surrogate
    let low := if lead = 0xE0 then 0xA0 else 0x80
    let high := if lead = 0xED then 0x9F else 0xBF
    ([], .within 2 low high (lead - 0xE0))
  else if lead < 0xF5 then
    let low := if lead = 0xF0 then 0x90 else 0x80
    let high := if lead = 0xF4 then 0x8F else 0xBF
    ([], .within 3 low high (lead - 0xF0))
  else ([replacement], .start)

def step : State → UInt8 → List Char × State
  | .start, b => first b
  | .within owed low high code, b =>
      if low ≤ b ∧ b ≤ high then
        let code := code * 64 + (b.toNat - 0x80)
        if owed ≤ 1 then ([Char.ofNat code], .start)
        else ([], .within (owed - 1) 0x80 0xBF code)
      else
        -- what came before is no character, and `b` may begin one
        let (chars, next) := first b
        (replacement :: chars, next)

/-- What an end of input leaves. -/
def State.finish : State → List Char
  | .start => []
  | .within .. => [replacement]

def decodeFrom : State → List UInt8 → List Char
  | s, [] => s.finish
  | s, b :: bs => (step s b).1 ++ decodeFrom (step s b).2 bs

def stateAfter : State → List UInt8 → State
  | s, [] => s
  | s, b :: bs => stateAfter (step s b).2 bs

def decode (bs : List UInt8) : List Char := decodeFrom .start bs

/-- Whether no character is left unfinished. -/
def Between (bs : List UInt8) : Prop := stateAfter .start bs = .start

instance (bs : List UInt8) : Decidable (Between bs) := inferInstanceAs (Decidable (_ = _))

@[simp] theorem decode_nil : decode [] = [] := rfl

theorem decodeFrom_append {s : State} {bs : List UInt8} (h : stateAfter s bs = .start)
    (more : List UInt8) : decodeFrom s (bs ++ more) = decodeFrom s bs ++ decode more := by
  induction bs generalizing s with
  | nil =>
      change s = .start at h
      subst h
      rfl
  | cons b bs ih =>
      simp only [List.cons_append, decodeFrom, ih h, List.append_assoc]

theorem decode_append {bs : List UInt8} (h : Between bs) (more : List UInt8) :
    decode (bs ++ more) = decode bs ++ decode more :=
  decodeFrom_append h more

theorem stateAfter_append (s : State) (as bs : List UInt8) :
    stateAfter s (as ++ bs) = stateAfter (stateAfter s as) bs := by
  induction as generalizing s with
  | nil => rfl
  | cons a as ih => simp only [List.cons_append, stateAfter, ih]

/-- What the machine may wait for within a character is no ASCII byte. -/
def State.Awaits : State → Prop
  | .start => True
  | .within _ low _ _ => 0x80 ≤ low

theorem first_awaits (b : UInt8) : (first b).2.Awaits := by
  unfold first
  dsimp only
  split_ifs <;> simp [State.Awaits]

theorem step_awaits (s : State) (b : UInt8) : (step s b).2.Awaits := by
  cases s with
  | start => exact first_awaits b
  | within owed low high code =>
      unfold step
      dsimp only
      split_ifs
      · trivial
      · simp [State.Awaits]
      · exact first_awaits b

/-- An ASCII byte ends what came before it, and stands for itself. -/
theorem decodeFrom_ascii {s : State} (hs : s.Awaits) {b : UInt8} (hb : b < 0x80)
    (bs more : List UInt8) :
    decodeFrom s (bs ++ b :: more) = decodeFrom s bs ++ Char.ofNat b.toNat :: decode more := by
  induction bs generalizing s with
  | nil =>
      have hlead : b.toNat < 0x80 := hb
      have hfirst : first b = ([Char.ofNat b.toNat], .start) := by
        unfold first
        simp only [hlead, if_true]
      cases s with
      | start => simp [decodeFrom, step, hfirst, State.finish, decode]
      | within owed low high code =>
          have hlow : ¬ low ≤ b := by
            intro hle
            have h80 : (0x80 : UInt8) ≤ low := hs
            exact absurd (UInt8.le_trans h80 hle) (UInt8.not_le.mpr hb)
          simp [decodeFrom, step, hlow, hfirst, State.finish, decode]
  | cons a bs ih =>
      simp only [List.cons_append, decodeFrom, ih (step_awaits s a), List.append_assoc]

theorem decode_ascii {b : UInt8} (hb : b < 0x80) (bs more : List UInt8) :
    decode (bs ++ b :: more) = decode bs ++ Char.ofNat b.toNat :: decode more :=
  decodeFrom_ascii (s := .start) trivial hb bs more

example : decode [0x68, 0xC3, 0xA9, 0xF0, 0x9F, 0x98, 0x80] = ['h', 'é', '😀'] := by decide

example : decode [0xE2, 0x82, 0x41, 0xFF] = [replacement, 'A', replacement] := by decide

end Utf8
