import Victauri.Core.Json
import Victauri.Core.Localhost
import Victauri.Core.RefusalLog
import Victauri.Library.Pool
import Victauri.Library.Utf8.Encoding

/-!
# The guards of the HTTP server

The middleware of the core's `middleware.rs` and the checks of `security.rs` it rests on.  A guard
wraps what handles a request, which is a program over the shared state; all it does with that state
itself is to note a refusal.
-/

namespace Victauri.Core

open Victauri.Library

namespace RefusalLog

/-- `admit` with no other thread about. -/
def admitted (l : RefusalLog) (now : UInt64) : Option UInt64 × RefusalLog :=
  if l.lastMs = 0 ∨ refusalLogIntervalMs ≤ RateLimiter.saturatingSub now l.lastMs then
    (some l.suppressed, { lastMs := max now 1, suppressed := 0 })
  else (none, { l with suppressed := l.suppressed + 1 })

/-- A call that is not disturbed leaves the log as `admit` does, with its line if it logs one. -/
theorem runs_admitted {Thread : Type} [DecidableEq Thread] (s : System Thread) {thread : Thread}
    (hidle : s.pcs thread = .idle) (now : UInt64) :
    ∃ as s', System.Runs s (.call thread now :: as) s' ∧ s'.pcs thread = .idle ∧
      s'.log = (s.log.admitted now).2 ∧ s'.history.lines = s.history.lines ++
        ((s.log.admitted now).1.map fun covered => (now, covered)).toList := by
  by_cases hdue : s.log.lastMs = 0 ∨
      refusalLogIntervalMs ≤ RateLimiter.saturatingSub now s.log.lastMs
  · rw [admitted, if_pos hdue]
    exact ⟨[.act thread, .act thread, .act thread], _, .of_foldlM (by
      simp [System.step, System.goto, act, hidle, hdue]
      rfl), by simp, rfl, rfl⟩
  · rw [admitted, if_neg hdue]
    exact ⟨[.act thread, .act thread], _, .of_foldlM (by
      simp [System.step, System.goto, act, hidle, hdue]
      rfl), by simp, rfl, by simp [History.after]⟩

end RefusalLog

namespace Middleware

open Localhost

/-! ## Requests and responses -/

/-- The names are lower case, and of one name the first value counts. -/
abbrev HeaderMap := List (String × List UInt8)

namespace HeaderMap

def get (headers : HeaderMap) (name : String) : Option (List UInt8) :=
  (headers.find? fun h => h.1 == name).map Prod.snd

def containsKey (headers : HeaderMap) (name : String) : Bool := (headers.get name).isSome

def insert (headers : HeaderMap) (name : String) (value : List UInt8) : HeaderMap :=
  (name, value) :: headers.filter fun h => h.1 != name

/-- `entry(name).or_insert(value)`. -/
def orInsert (headers : HeaderMap) (name : String) (value : List UInt8) : HeaderMap :=
  if headers.containsKey name then headers else headers.insert name value

theorem get_insert_self (headers : HeaderMap) (name : String) (value : List UInt8) :
    (headers.insert name value).get name = some value := by
  unfold get insert
  rw [@List.find?_cons_of_pos _ (fun h => h.1 == name) (name, value) _ (beq_self_eq_true name)]
  rfl

theorem get_insert_of_ne (headers : HeaderMap) {name other : String} (value : List UInt8)
    (hne : other ≠ name) : (headers.insert name value).get other = headers.get other := by
  unfold get insert
  rw [@List.find?_cons_of_neg _ (fun h => h.1 == other) (name, value) _ fun h =>
    hne (beq_iff_eq.mp h).symm]
  rw [List.find?_filter]
  refine congrArg (fun q => (headers.find? q).map Prod.snd) (funext fun h => ?_)
  by_cases hother : h.1 = other
  · simp [hother, hne]
  · simp [hother]

end HeaderMap

/-- `HeaderValue::to_str`. -/
def toStr (value : List UInt8) : Option (List Char) :=
  if value.all fun b => 32 ≤ b && b < 127 || b == 9 then
    some (value.map fun b => Char.ofNat b.toNat)
  else none

inductive Ending where
  | complete
  | broken (error : String)
  | late
  deriving DecidableEq

/-- What comes of a body before its deadline, and how it ends. -/
structure Delivery where
  bytes : List UInt8
  ending : Ending
  deriving DecidableEq

structure Request where
  method : String
  path : String
  headers : HeaderMap
  body : Delivery
  deriving DecidableEq

inductive Body where
  | empty
  | text (text : String)
  | json (value : Json.Value)
  | bytes (bytes : List UInt8)

structure Response where
  status : Nat
  headers : HeaderMap
  body : Body

def Response.ofStatus (status : Nat) : Response := { status, headers := [], body := .empty }

def Response.ofText (status : Nat) (text : String) : Response :=
  { status
    headers := [("content-type", Utf8.bytes "text/plain; charset=utf-8")]
    body := .text text }

def Response.ofJson (status : Nat) (value : Json.Value) : Response :=
  { status
    headers := [("content-type", Utf8.bytes "application/json")]
    body := .json value }

namespace StatusCode

def ok : Nat := 200
def badRequest : Nat := 400
def unauthorized : Nat := 401
def forbidden : Nat := 403
def notFound : Nat := 404
def methodNotAllowed : Nat := 405
def requestTimeout : Nat := 408
def payloadTooLarge : Nat := 413
def unsupportedMediaType : Nat := 415
def tooManyRequests : Nat := 429

end StatusCode

/-! ## The checks -/

def constantTimeEq (a b : List UInt8) : Bool :=
  if a.length ≠ b.length then false
  else (a.zip b).foldl (fun acc p => acc ||| (p.1 ^^^ p.2)) 0 == 0

/-- What `url::Url` has of a URL. -/
structure Url where
  username : List Char
  password : Option (List Char)
  scheme : List Char
  hostStr : Option (List Char)

def isAllowedOrigin (parse : List Char → Option Url) (origin : List Char) : Bool :=
  match parse origin with
  | none => false
  | some parsed =>
      parsed.username.isEmpty && parsed.password.isNone &&
        (parsed.scheme == "http".toList || parsed.scheme == "https".toList) &&
          (parsed.hostStr == some "localhost".toList || parsed.hostStr == some "127.0.0.1".toList ||
            parsed.hostStr == some "[::1]".toList || parsed.hostStr == some "::1".toList)

def bearerPrefixLen : Nat := "Bearer ".length

def bearerMatches (headers : HeaderMap) (expected : List Char) : Bool :=
  match (headers.get "authorization").bind toStr with
  | some v =>
      decide (bearerPrefixLen ≤ v.length) &&
        eqIgnoreAsciiCase (v.take bearerPrefixLen) "bearer ".toList &&
          constantTimeEq (Utf8.encode (v.drop bearerPrefixLen)) (Utf8.encode expected)
  | none => false

/-! ## The guards -/

/-- Whose log notes a refusal. -/
inductive Refusals where
  | auth
  | host
  | origin
  deriving DecidableEq

/-- What handles a request, up to where a guard stands. -/
abbrev Next (Op : Type → Type) := Request → Program Op Response

section

variable {Op : Type → Type} (refused : Refusals → Op Unit)

def requireAuth (expected : List Char) (next : Next Op) : Next Op := fun request =>
  if bearerMatches request.headers expected then next request
  else .call (refused .auth) fun _ => .done (.ofStatus StatusCode.unauthorized)

def dnsRebindingGuard (next : Next Op) : Next Op := fun request =>
  let host := ((request.headers.get "host").bind toStr).getD []
  if !isLocalhostHost host then
    .call (refused .host) fun _ => .done (.ofStatus StatusCode.forbidden)
  else next request

def originGuard (parseUrl : List Char → Option Url) (next : Next Op) : Next Op := fun request =>
  match request.headers.get "sec-fetch-site" with
  | some site =>
      if site ≠ Utf8.bytes "none" then
        .call (refused .origin) fun _ => .done (.ofStatus StatusCode.forbidden)
      else checkOrigin request
  | none => checkOrigin request
where
  checkOrigin (request : Request) : Program Op Response :=
    match request.headers.get "origin" with
    | some origin =>
        match toStr origin with
        | some origin =>
            if isAllowedOrigin parseUrl origin then next request
            else .call (refused .origin) fun _ => .done (.ofStatus StatusCode.forbidden)
        | none => .call (refused .origin) fun _ => .done (.ofStatus StatusCode.forbidden)
    | none => next request

def securityHeaders (next : Next Op) : Next Op := fun request =>
  (next request).map fun response =>
    { response with
      headers := (((response.headers.insert "x-content-type-options" (Utf8.bytes "nosniff")).insert
        "cache-control" (Utf8.bytes "no-store")).insert
          "x-frame-options" (Utf8.bytes "DENY")).insert
            "content-security-policy" (Utf8.bytes "default-src 'none'") }

end

/-! ## What the guards let through -/

def fromLocalhost (request : Request) : Bool :=
  isLocalhostHost (((request.headers.get "host").bind toStr).getD [])

/-- No page made a browser send the request, or it was one of a local server. -/
def fromNoPage (parseUrl : List Char → Option Url) (request : Request) : Bool :=
  (request.headers.get "sec-fetch-site").all (· == Utf8.bytes "none") &&
    (request.headers.get "origin").all fun origin =>
      (toStr origin).any (isAllowedOrigin parseUrl)

section

variable {Op : Type → Type} (refused : Refusals → Op Unit) (next : Next Op) (request : Request)

theorem dnsRebindingGuard_eq : dnsRebindingGuard refused next request =
    if fromLocalhost request then next request
    else .call (refused .host) fun _ => .done (.ofStatus StatusCode.forbidden) := by
  unfold dnsRebindingGuard
  by_cases hhost : fromLocalhost request = true
  · rw [if_pos hhost]
    exact if_neg fun hnot => Bool.false_ne_true ((congrArg not hhost).symm.trans hnot)
  · rw [if_neg hhost]
    exact if_pos (congrArg not (Bool.eq_false_iff.mpr hhost))

theorem checkOrigin_eq (parseUrl : List Char → Option Url) :
    originGuard.checkOrigin refused parseUrl next request =
      if ((request.headers.get "origin").all fun origin =>
        (toStr origin).any (isAllowedOrigin parseUrl)) = true then next request
      else .call (refused .origin) fun _ => .done (.ofStatus StatusCode.forbidden) := by
  unfold originGuard.checkOrigin
  cases request.headers.get "origin" with
  | none => rfl
  | some origin => cases htext : toStr origin <;> simp [htext]

theorem originGuard_eq (parseUrl : List Char → Option Url) :
    originGuard refused parseUrl next request =
      if fromNoPage parseUrl request then next request
      else .call (refused .origin) fun _ => .done (.ofStatus StatusCode.forbidden) := by
  unfold originGuard fromNoPage
  cases request.headers.get "sec-fetch-site" with
  | none => exact checkOrigin_eq refused next request parseUrl
  | some site =>
    by_cases hsite : site = Utf8.bytes "none" <;> simp [hsite, checkOrigin_eq]

end

theorem foldl_or_eq_zero (pairs : List (UInt8 × UInt8)) (acc : UInt8) :
    pairs.foldl (fun acc p => acc ||| (p.1 ^^^ p.2)) acc = 0 ↔
      acc = 0 ∧ ∀ p ∈ pairs, p.1 = p.2 := by
  induction pairs generalizing acc with
  | nil => simp
  | cons p pairs ih =>
    rw [List.foldl_cons, ih, List.forall_mem_cons, UInt8.or_eq_zero_iff, UInt8.xor_eq_zero_iff,
      and_assoc]

theorem constantTimeEq_iff (a b : List UInt8) : constantTimeEq a b = true ↔ a = b := by
  unfold constantTimeEq
  by_cases hlen : a.length = b.length
  · rw [if_neg (not_not.mpr hlen), beq_iff_eq, foldl_or_eq_zero]
    constructor
    · rintro ⟨-, hall⟩
      refine List.ext_getElem hlen fun i ha hb => ?_
      have hzip : (a.zip b)[i]? = some (a[i], b[i]) := by
        rw [List.getElem?_zip_eq_some]
        exact ⟨List.getElem?_eq_getElem ha, List.getElem?_eq_getElem hb⟩
      exact hall _ (List.mem_of_getElem? hzip)
    · rintro rfl
      refine ⟨rfl, fun p hp => ?_⟩
      obtain ⟨i, hi, rfl⟩ := List.mem_iff_getElem.mp hp
      rw [List.getElem_zip]
  · rw [if_pos hlen]
    refine ⟨nofun, ?_⟩
    rintro rfl
    exact absurd rfl hlen

theorem encode_injective : Function.Injective Utf8.encode := by
  intro a b h
  have hread := Utf8.fromUTF8?_encode a
  rw [h, Utf8.fromUTF8?_encode b] at hread
  have htext := congrArg String.toList (Option.some.inj hread)
  rw [String.toList_ofList, String.toList_ofList] at htext
  exact htext.symm

theorem bearerMatches_iff (headers : HeaderMap) (expected : List Char) :
    bearerMatches headers expected = true ↔ ∃ scheme,
      (headers.get "authorization").bind toStr = some (scheme ++ expected) ∧
        eqIgnoreAsciiCase scheme "bearer ".toList = true := by
  unfold bearerMatches
  cases (headers.get "authorization").bind toStr with
  | none => simp
  | some v =>
    dsimp only
    rw [Bool.and_eq_true, Bool.and_eq_true, constantTimeEq_iff, encode_injective.eq_iff,
      decide_eq_true_eq]
    constructor
    · rintro ⟨⟨-, hscheme⟩, hrest⟩
      refine ⟨v.take bearerPrefixLen, ?_, hscheme⟩
      rw [← hrest, List.take_append_drop]
    · rintro ⟨scheme, hv, hscheme⟩
      have hlen : scheme.length = bearerPrefixLen := by
        have hmap := congrArg List.length (beq_iff_eq.mp hscheme)
        rwa [List.length_map, List.length_map] at hmap
      obtain rfl := Option.some.inj hv
      rw [List.length_append, List.take_left' hlen, List.drop_left' hlen]
      exact ⟨⟨by omega, hscheme⟩, rfl⟩

end Middleware

end Victauri.Core
