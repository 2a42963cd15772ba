import Mathlib.Data.List.Infix

/-!
# The guard against DNS rebinding

`is_localhost_host` of `security.rs`, on the characters of a `Host` header.
-/

namespace Victauri.Core.Localhost

-- A quantifier over the characters of a text is decided along the text.
attribute [local instance (1100)] List.decidableBAll

/-- `str::split_once` at a character. -/
def splitOnce (mark : Char) : List Char → Option (List Char × List Char)
  | [] => none
  | c :: rest =>
      if c = mark then some ([], rest)
      else (splitOnce mark rest).map fun out => (c :: out.1, out.2)

/-- `u16::from_str` on digits, with the value of those already read. -/
def parseU16 (value : Nat) : List Char → Option Nat
  | [] => some value
  | c :: rest =>
      let value := 10 * value + (c.toNat - '0'.toNat)
      if value < 65536 then parseU16 value rest else none

/-- `valid_port`. -/
def validPort (port : List Char) : Bool :=
  !port.isEmpty && port.all Char.isDigit && (parseU16 0 port).isSome

/-- The host without its brackets and its port, or nothing where the check returns early. -/
def hostName (host : List Char) : Option (List Char) :=
  match host with
  | '[' :: rest =>
      match splitOnce ']' rest with
      | some (inner, []) => some inner
      | some (inner, ':' :: port) => if validPort port then some inner else none
      | _ => none
  | _ =>
      if "::".toList <:+: host then some host
      else
        match splitOnce ':' host with
        | some (name, port) => if validPort port then some name else none
        | none => some host

def eqIgnoreAsciiCase (a b : List Char) : Bool := a.map Char.toLower == b.map Char.toLower

/-- `is_localhost_host`. -/
def isLocalhostHost (host : List Char) : Bool :=
  match hostName host with
  | some name =>
      eqIgnoreAsciiCase name "localhost".toList || name == "127.0.0.1".toList ||
        name == "::1".toList
  | none => false

/-! ## What is a local host -/

def IsName (name : List Char) : Prop :=
  name.map Char.toLower = "localhost".toList ∨ name = "127.0.0.1".toList

def IsPort (port : List Char) : Prop :=
  port ≠ [] ∧ (∀ c ∈ port, c.isDigit = true) ∧ Nat.ofDigitChars 10 port 0 ≤ 65535

/-- What may stand in brackets. -/
def IsInner (inner : List Char) : Prop := IsName inner ∨ inner = "::1".toList

inductive IsLocalhost : List Char → Prop
  | loopback : IsLocalhost "::1".toList
  | name {name : List Char} (hname : IsName name) : IsLocalhost name
  | namePort {name port : List Char} (hname : IsName name) (hport : IsPort port) :
      IsLocalhost (name ++ ':' :: port)
  | bracket {inner : List Char} (hinner : IsInner inner) : IsLocalhost ('[' :: (inner ++ [']']))
  | bracketPort {inner port : List Char} (hinner : IsInner inner) (hport : IsPort port) :
      IsLocalhost ('[' :: (inner ++ ']' :: ':' :: port))

/-! ## Splitting -/

theorem splitOnce_append {mark : Char} {front : List Char} (hfront : mark ∉ front)
    (rest : List Char) : splitOnce mark (front ++ mark :: rest) = some (front, rest) := by
  induction front with
  | nil => exact if_pos rfl
  | cons c front ih =>
    rw [List.mem_cons, not_or] at hfront
    rw [List.cons_append, splitOnce, if_neg fun h => hfront.1 h.symm, ih hfront.2]
    rfl

theorem splitOnce_eq_none {mark : Char} {s : List Char} (hs : mark ∉ s) :
    splitOnce mark s = none := by
  induction s with
  | nil => rfl
  | cons c s ih =>
    rw [List.mem_cons, not_or] at hs
    rw [splitOnce, if_neg fun h => hs.1 h.symm, ih hs.2]
    rfl

theorem eq_append_of_splitOnce {mark : Char} {s front rest : List Char}
    (h : splitOnce mark s = some (front, rest)) : s = front ++ mark :: rest := by
  induction s generalizing front with
  | nil => cases h
  | cons c s ih =>
    rw [splitOnce] at h
    by_cases hc : c = mark
    · rw [if_pos hc] at h
      obtain ⟨rfl, rfl⟩ := Prod.mk.inj (Option.some.inj h)
      rw [hc]
      rfl
    · rw [if_neg hc] at h
      obtain ⟨out, hout, heq⟩ := Option.map_eq_some_iff.mp h
      obtain ⟨rfl, rfl⟩ := Prod.mk.inj heq
      rw [ih hout]
      rfl

/-! ## Ports -/

theorem le_ofDigitChars (digits : List Char) (value : Nat) :
    value ≤ Nat.ofDigitChars 10 digits value := by
  induction digits generalizing value with
  | nil => rw [Nat.ofDigitChars_nil]
  | cons c digits ih =>
    rw [Nat.ofDigitChars_cons]
    have hrest := ih (10 * value + (c.toNat - '0'.toNat))
    omega

theorem parseU16_isSome (digits : List Char) {value : Nat} (hvalue : value < 65536) :
    (parseU16 value digits).isSome = true ↔ Nat.ofDigitChars 10 digits value ≤ 65535 := by
  induction digits generalizing value with
  | nil =>
    rw [Nat.ofDigitChars_nil, parseU16]
    simp only [Option.isSome_some, true_iff]
    omega
  | cons c digits ih =>
    rw [Nat.ofDigitChars_cons, parseU16]
    by_cases hsmall : 10 * value + (c.toNat - '0'.toNat) < 65536
    · rw [if_pos hsmall]
      exact ih hsmall
    · have hle := le_ofDigitChars digits (10 * value + (c.toNat - '0'.toNat))
      rw [if_neg hsmall]
      simp only [Option.isSome_none, Bool.false_eq_true, false_iff]
      omega

theorem validPort_iff (port : List Char) : validPort port = true ↔ IsPort port := by
  rw [validPort, IsPort, Bool.and_eq_true, Bool.and_eq_true, List.all_eq_true,
    parseU16_isSome port (by decide), Bool.not_eq_true', and_assoc, List.isEmpty_eq_false_iff]

/-! ## Names -/

/-- No name holds what the check splits at. -/
theorem IsName.plain {name : List Char} (h : IsName name) :
    ∀ c ∈ name, c ≠ ':' ∧ c ≠ '[' ∧ c ≠ ']' := by
  intro c hc
  rcases h with h | rfl
  · have hlower : c.toLower ∈ "localhost".toList := h ▸ List.mem_map_of_mem hc
    refine ⟨?_, ?_, ?_⟩ <;>
      · rintro rfl
        revert hlower
        decide
  · revert c
    decide

theorem isLocalhostHost_eq_true {host : List Char} :
    isLocalhostHost host = true ↔ ∃ name, hostName host = some name ∧ IsInner name := by
  have hlocal : "localhost".toList.map Char.toLower = "localhost".toList := by decide
  rw [isLocalhostHost]
  cases hostName host with
  | none =>
    constructor
    · intro h
      cases h
    · rintro ⟨name, h, -⟩
      cases h
  | some name =>
    simp only [Option.some.injEq, exists_eq_left', Bool.or_eq_true, beq_iff_eq, IsInner, IsName,
      eqIgnoreAsciiCase, hlocal]

/-! ## The check -/

theorem hostName_of_head {host : List Char} (h : host.head? ≠ some '[') :
    hostName host =
      if "::".toList <:+: host then some host
      else
        match splitOnce ':' host with
        | some (name, port) => if validPort port then some name else none
        | none => some host := by
  unfold hostName
  split
  · exact absurd rfl h
  · rfl

theorem not_infix_of_count {host : List Char} (h : host.count ':' < 2) :
    ¬ "::".toList <:+: host := by
  intro hinfix
  have hle := hinfix.sublist.count_le ':'
  have htwo : "::".toList.count ':' = 2 := by decide
  omega

theorem count_colon_of_name {name : List Char} (h : IsName name) : name.count ':' = 0 := by
  rw [List.count_eq_zero]
  exact fun hmem => (h.plain ':' hmem).1 rfl

theorem IsPort.not_mem {port : List Char} (h : IsPort port) : ':' ∉ port :=
  fun hmem => absurd (h.2.1 ':' hmem) (by decide)

theorem head_ne_of_name {name : List Char} (h : IsName name) (rest : List Char) :
    (name ++ rest).head? = some '[' → rest.head? = some '[' := by
  cases name with
  | nil => exact id
  | cons c name => exact fun hhead => absurd (Option.some.inj hhead) (h.plain c List.mem_cons_self).2.1

theorem IsInner.not_mem {inner : List Char} (h : IsInner inner) : ']' ∉ inner := by
  intro hmem
  rcases h with h | rfl
  · exact (h.plain ']' hmem).2.2 rfl
  · revert hmem
    decide

/-- Each local host is read as the name in it. -/
theorem hostName_of_isLocalhost {host : List Char} (h : IsLocalhost host) :
    ∃ name, hostName host = some name ∧ IsInner name := by
  cases h with
  | loopback => exact ⟨"::1".toList, by decide, Or.inr rfl⟩
  | name hname =>
    refine ⟨host, ?_, Or.inl hname⟩
    have hhead : host.head? ≠ some '[' := by
      intro hhead
      have hnil := head_ne_of_name hname [] (by rw [List.append_nil]; exact hhead)
      cases hnil
    have hcount : host.count ':' = 0 := count_colon_of_name hname
    rw [hostName_of_head hhead, if_neg (not_infix_of_count (by omega)),
      splitOnce_eq_none (List.count_eq_zero.mp hcount)]
  | @namePort name port hname hport =>
    refine ⟨name, ?_, Or.inl hname⟩
    have hhead : (name ++ ':' :: port).head? ≠ some '[' := by
      intro hhead
      have hcolon := head_ne_of_name hname (':' :: port) hhead
      cases hcolon
    have hname0 : name.count ':' = 0 := count_colon_of_name hname
    have hcount : (name ++ ':' :: port).count ':' < 2 := by
      rw [List.count_append, List.count_cons_self, hname0, List.count_eq_zero.mpr hport.not_mem]
      decide
    rw [hostName_of_head hhead, if_neg (not_infix_of_count hcount),
      splitOnce_append (List.count_eq_zero.mp hname0)]
    exact if_pos ((validPort_iff port).mpr hport)
  | @bracket inner hinner =>
    refine ⟨inner, ?_, hinner⟩
    rw [hostName, splitOnce_append hinner.not_mem]
  | @bracketPort inner port hinner hport =>
    refine ⟨inner, ?_, hinner⟩
    rw [hostName, splitOnce_append hinner.not_mem]
    exact if_pos ((validPort_iff port).mpr hport)

/-- What the name is read from is a local host if the name may stand there. -/
theorem isLocalhost_of_hostName {host name : List Char} (h : hostName host = some name)
    (hname : IsInner name) : IsLocalhost host := by
  by_cases hhead : host.head? = some '['
  · obtain ⟨rest, rfl⟩ := List.head?_eq_some_iff.mp hhead
    rw [hostName] at h
    split at h
    · next inner hsplit =>
      rw [eq_append_of_splitOnce hsplit, Option.some.inj h]
      exact IsLocalhost.bracket hname
    · next inner port hsplit =>
      split_ifs at h with hport
      rw [eq_append_of_splitOnce hsplit, Option.some.inj h]
      exact IsLocalhost.bracketPort hname ((validPort_iff port).mp hport)
    · cases h
  · rw [hostName_of_head hhead] at h
    by_cases hcolons : "::".toList <:+: host
    · rw [if_pos hcolons] at h
      obtain rfl := Option.some.inj h
      rcases hname with hname | rfl
      · exact IsLocalhost.name hname
      · exact IsLocalhost.loopback
    · rw [if_neg hcolons] at h
      split at h
      · next before port hsplit =>
        split_ifs at h with hport
        obtain rfl := Option.some.inj h
        have hhost := eq_append_of_splitOnce hsplit
        rcases hname with hname | rfl
        · rw [hhost]
          exact IsLocalhost.namePort hname ((validPort_iff port).mp hport)
        · have hinfix : "::".toList <:+: "::1".toList ++ ':' :: port :=
            ⟨[], '1' :: ':' :: port, rfl⟩
          exact absurd (hhost ▸ hinfix) hcolons
      · obtain rfl := Option.some.inj h
        rcases hname with hname | rfl
        · exact IsLocalhost.name hname
        · exact IsLocalhost.loopback

/-- The guard accepts the local hosts and nothing else. -/
theorem isLocalhostHost_iff (host : List Char) :
    isLocalhostHost host = true ↔ IsLocalhost host := by
  rw [isLocalhostHost_eq_true]
  constructor
  · rintro ⟨name, h, hname⟩
    exact isLocalhost_of_hostName h hname
  · exact hostName_of_isLocalhost

example : isLocalhostHost "[::1]:7373".toList = true := by decide

example : isLocalhostHost "localhost.evil.com:80".toList = false := by decide

end Victauri.Core.Localhost
