import Victauri.Plugin.Mcp.Server

/-!
# What reaches the handlers, and what one request can do to another

However many requests are served at once and however their steps interleave, a handler makes a call
only for a request that passed every guard, and a request that a guard turns away takes nothing from
the others: not a step of theirs, not an answer, not a token of their bucket.
-/

namespace Victauri.Plugin.Mcp.Server

open Victauri.Core.Middleware Victauri.Library Victauri.Library.Program

variable {ApiOp : Type → Type} {τ Thread : Type}

/-! ## The calls a request may make -/

/-- A browser sends a body that is not JSON. -/
def plainFromBrowser (request : Request) : Bool :=
  decide (request.method ∉ ["GET", "HEAD", "OPTIONS"]) && request.headers.containsKey "origin" &&
    !((request.headers.get "content-type").bind toStr).any fun ct =>
      Core.Localhost.eqIgnoreAsciiCase (Database.trim (ct.takeWhile (· ≠ ';')))
        "application/json".toList

/-- No guard ahead of the rate limiter refuses the request. -/
def passes (config : Config ApiOp) (request : Request) : Bool :=
  fromLocalhost request && fromNoPage config.parseUrl request && !plainFromBrowser request

/-- What the guards ask of a request. -/
structure Trusted (config : Config ApiOp) (request : Request) : Prop where
  passes : passes config request = true
  /-- The token in full, if the server asks for one, after `Bearer` in any case of its letters. -/
  authorized : ∀ token, config.token = some token → ∃ scheme,
    (request.headers.get "authorization").bind toStr = some (scheme ++ token) ∧
      Core.Localhost.eqIgnoreAsciiCase scheme "bearer ".toList = true
  complete : request.body.ending = .complete
  small : request.body.bytes.length ≤ bodyLimit request.path

section

variable {P : ∀ {β : Type}, Op ApiOp β → Prop} {next : Next (Op ApiOp)} {request : Request}

theorem closeOnRejection_only (h : (next request).Only P) :
    (closeOnRejection next request).Only P :=
  h.map _

theorem dnsRebindingGuard_only (hrefused : fromLocalhost request = false → P (refused .host))
    (h : fromLocalhost request = true → (next request).Only P) :
    (dnsRebindingGuard refused next request).Only P := by
  rw [dnsRebindingGuard_eq]
  cases hhost : fromLocalhost request with
  | true => exact h hhost
  | false => exact ⟨hrefused hhost, fun _ => trivial⟩

theorem originGuard_only {parseUrl : List Char → Option Url}
    (hrefused : fromNoPage parseUrl request = false → P (refused .origin))
    (h : fromNoPage parseUrl request = true → (next request).Only P) :
    (originGuard refused parseUrl next request).Only P := by
  rw [originGuard_eq]
  cases hpage : fromNoPage parseUrl request with
  | true => exact h hpage
  | false => exact ⟨hrefused hpage, fun _ => trivial⟩

theorem securityHeaders_only (h : (next request).Only P) : (securityHeaders next request).Only P :=
  h.map _

theorem requireJsonFromBrowsers_only
    (h : plainFromBrowser request = false → (next request).Only P) :
    (requireJsonFromBrowsers next request).Only P := by
  unfold requireJsonFromBrowsers
  unfold plainFromBrowser at h
  dsimp only
  split
  · rename_i hsends
    split
    · trivial
    · rename_i hjson
      exact h (by rw [Bool.eq_false_iff.mpr hjson, Bool.and_false])
  · rename_i hsends
    exact h (by rw [Bool.eq_false_iff.mpr hsends, Bool.false_and])

theorem splitRateLimit_only {token : Option (List Char)}
    (hacquire : P (.inl (.tryAcquire (bucketOf token request)))) (h : (next request).Only P) :
    (splitRateLimit token next request).Only P := by
  unfold splitRateLimit
  refine ⟨hacquire, fun acquired => ?_⟩
  cases acquired with
  | false => trivial
  | true => exact h

theorem requireAuth_only {token : List Char} (hrefused : P (refused .auth))
    (h : bearerMatches request.headers token = true → (next request).Only P) :
    (requireAuth refused token next request).Only P := by
  unfold requireAuth
  by_cases hbearer : bearerMatches request.headers token = true
  · rw [if_pos hbearer]
    exact h hbearer
  · rw [if_neg hbearer]
    exact ⟨hrefused, fun _ => trivial⟩

theorem readBodyWithDeadline_only
    (h : request.body.bytes.length ≤ bodyLimit request.path → request.body.ending = .complete →
      (next request).Only P) :
    (readBodyWithDeadline next request).Only P := by
  unfold readBodyWithDeadline
  dsimp only
  split
  · trivial
  · rename_i hlarge
    split
    · rename_i hending
      exact h (Nat.le_of_not_lt hlarge) hending
    · split <;> trivial
    · trivial

theorem apiRoutes_only (config : Config ApiOp) (h : ∀ {β : Type} (op : ApiOp β), P (.inr op)) :
    (apiRoutes config request).Only P := by
  have hhandler (service : Request → Program ApiOp Response) :
      (handler service request).Only P := Only.lift _ h
  have hmcp : (refuseNonObjectToolArguments config.fromSlice (handler config.mcp)
      request).Only P := by
    unfold refuseNonObjectToolArguments
    split
    · trivial
    · split
      · exact hhandler _
      · split
        · exact hhandler _
        · trivial
  unfold apiRoutes
  split
  · unfold mcpRouter
    split
    · exact hmcp
    · exact hmcp.map _
  · split
    · exact hhandler _
    · split
      · exact hhandler _
      · trivial

/-- The calls of a request: what a guard notes, a token of its bucket, and the calls of a handler if
it is to be trusted. -/
theorem buildApp_only (config : Config ApiOp) (request : Request)
    (hrefused : passes config request = false → P (refused .host) ∧ P (refused .origin))
    (hacquire : passes config request = true →
      P (.inl (.tryAcquire (bucketOf config.token request))))
    (hauth : passes config request = true → P (refused .auth))
    (hapi : Trusted config request → ∀ {β : Type} (op : ApiOp β), P (.inr op)) :
    (buildApp config request).Only P := by
  refine closeOnRejection_only <| dnsRebindingGuard_only (fun hlocal => ?_) fun hlocal =>
    originGuard_only (fun hpage => ?_) fun hpage => securityHeaders_only <|
      requireJsonFromBrowsers_only fun hjson => ?_
  · exact (hrefused (by rw [passes, hlocal, Bool.false_and, Bool.false_and])).1
  · exact (hrefused (by rw [passes, hpage, Bool.and_false, Bool.false_and])).2
  have hpasses : passes config request = true := by
    rw [passes, hlocal, hpage, hjson]
    rfl
  refine splitRateLimit_only (hacquire hpasses) ?_
  unfold routes
  split
  · unfold health
    split <;> trivial
  · have hbody (hauthorized : ∀ token, config.token = some token →
          bearerMatches request.headers token = true) :
        (readBodyWithDeadline (apiRoutes config) request).Only P :=
      readBodyWithDeadline_only fun hsmall hcomplete => apiRoutes_only config fun op =>
        hapi { passes := hpasses, complete := hcomplete, small := hsmall
               authorized := fun token htoken =>
                 (bearerMatches_iff _ _).mp (hauthorized token htoken) } op
    cases htoken : config.token with
    | none =>
      refine hbody fun token hsome => ?_
      cases htoken.symm.trans hsome
    | some token =>
      refine requireAuth_only (hauth hpasses) fun hbearer => hbody fun token' hsome => ?_
      cases htoken.symm.trans hsome
      exact hbearer

end

/-! ## Runs -/

variable [DecidableEq Thread] {performApi : {β : Type} → ApiOp β → τ → β × τ}
  {driftApi : τ → τ → Prop} {config : Config ApiOp} {env : Env τ}
  {as : List (Pool.Action Thread Request Response)}
  {s : Pool (Op ApiOp) (Env τ) Thread Request Response}

/-- A run of the server from a state in which it serves no request. -/
abbrev Runs (performApi : {β : Type} → ApiOp β → τ → β × τ) (driftApi : τ → τ → Prop)
    (config : Config ApiOp) (env : Env τ) (as : List (Pool.Action Thread Request Response))
    (s : Pool (Op ApiOp) (Env τ) Thread Request Response) : Prop :=
  Run (Pool.Step (buildApp config) (perform performApi) (Drift driftApi)) (Pool.idle env) as s

/-! A server of one call. -/

inductive Ping : Type → Type where
  | ping : Ping Unit

def pingConfig : Config Ping :=
  { authToken := some ['t']
    stateful := false
    parseUrl := fun _ => none
    fromSlice := fun _ => none
    mcp := fun _ => .done (.ofStatus 200)
    rest := fun _ => .done (.ofStatus 200)
    info := fun _ => .call .ping fun _ => .done (.ofStatus 200) }

def agentRequest : Request :=
  { method := "GET", path := "/info"
    headers := [("host", Utf8.bytes "localhost"), ("authorization", Utf8.bytes "Bearer t")]
    body := ⟨[], .complete⟩ }


def pageRequest : Request :=
  { method := "GET", path := "/health"
    headers := [("host", Utf8.bytes "localhost"), ("sec-fetch-site", Utf8.bytes "cross-site")]
    body := ⟨[], .complete⟩ }

def localRequest : Request :=
  { method := "GET", path := "/health", headers := [("host", Utf8.bytes "localhost")]
    body := ⟨[], .complete⟩ }

def performPing {β : Type} (op : Ping β) (n : Nat) : β × Nat :=
  match op with
  | .ping => ((), n + 1)

def freshEnv : Env Nat :=
  { clock := ⟨0, 0, 1⟩, shared := .new 1, authenticated := .new 1, authRefusals := .new
    hostRefusals := .new, originRefusals := .new, lines := [], api := 0 }

/-- A request without the token, one of a page and one with the token, served together. -/
theorem exists_run_served :
    ∃ (s : Pool (Op Ping) (Env Nat) (Fin 3) Request Response)
      (next : Unit → Program (Op Ping) Response),
      Runs performPing (fun _ _ => True) pingConfig freshEnv
        [.start 0 localRequest, .start 1 pageRequest, .start 2 agentRequest, .act 0 localRequest,
          .act 1 pageRequest, .act 2 agentRequest] s ∧
        s.procs 2 = some (agentRequest, .call (.inr .ping) next) :=
  ⟨_, _, .cons (.start rfl) (.cons (.start rfl) (.cons (.start rfl) (.cons (.act rfl)
    (.cons (.act rfl) (.single (.act rfl)))))), rfl⟩

/-- In no run is a handler about to make a call for a request that a guard refuses. -/
theorem handlers_trusted (h : Runs performApi driftApi config env as s) {t : Thread}
    {request : Request} {β : Type} {op : ApiOp β} {next : β → Program (Op ApiOp) Response}
    (hat : s.procs t = some (request, .call (.inr op) next)) : Trusted config request := by
  have honly := @Pool.only _ _ _ _ _ _ _ _ _ s
    (fun request _ op => ∀ api, op = Sum.inr api → Trusted config request) env as
    (fun request => buildApp_only config request (fun _ => ⟨by rintro _ ⟨⟩, by rintro _ ⟨⟩⟩)
      (by rintro _ _ ⟨⟩) (by rintro _ _ ⟨⟩) fun htrusted _ _ _ _ => htrusted) h t request _ hat
  exact honly.1 op rfl

theorem agentRequest_trusted : Trusted pingConfig agentRequest := by
  obtain ⟨s, next, hrun, hat⟩ := exists_run_served
  exact handlers_trusted hrun hat

/-! ## Requests without the token -/

/-- What a request may do that cannot present the token. -/
def Unprivileged {β : Type} : Op ApiOp β → Prop
  | .inl (.refused _) => True
  | .inl (.tryAcquire bucket) => bucket = .shared
  | .inr _ => False

/-- What a request may do that presents it. -/
def Privileged {β : Type} : Op ApiOp β → Prop
  | .inl (.tryAcquire bucket) => bucket = .authenticated
  | _ => True

/-- The states that are alike for those who present the token. -/
structure SameForAgent (env env' : Env τ) : Prop where
  authenticated : env'.authenticated = env.authenticated
  clock : env'.clock.authenticatedMs = env.clock.authenticatedMs
  api : env'.api = env.api

theorem setRefusals_same (env : Env τ) (kind : Refusals) (log : Core.RefusalLog) :
    (env.setRefusals kind log).shared = env.shared ∧
      (env.setRefusals kind log).authenticated = env.authenticated ∧
      (env.setRefusals kind log).clock = env.clock ∧ (env.setRefusals kind log).api = env.api := by
  cases kind <;> exact ⟨rfl, rfl, rfl, rfl⟩

theorem SameForAgent.unprivileged {β : Type} {op : Op ApiOp β} {u v : Env τ}
    (hop : Unprivileged op) (h : SameForAgent u v) :
    SameForAgent (perform performApi op u).2 v := by
  rcases op with op | op
  · cases op with
    | refused kind =>
      obtain ⟨-, hauthenticated, hclock, hapi⟩ :=
        setRefusals_same u kind ((u.refusals kind).admitted u.clock.unixMs).2
      exact ⟨h.authenticated.trans hauthenticated.symm,
        h.clock.trans (congrArg Clock.authenticatedMs hclock).symm, h.api.trans hapi.symm⟩
    | tryAcquire bucket =>
      cases bucket with
      | shared => exact ⟨h.authenticated, h.clock, h.api⟩
      | authenticated => cases hop
  · exact hop.elim

theorem SameForAgent.privileged {β : Type} {op : Op ApiOp β} {u v : Env τ}
    (hop : Privileged op) (h : SameForAgent u v) :
    (perform performApi op u).1 = (perform performApi op v).1 ∧
      SameForAgent (perform performApi op u).2 (perform performApi op v).2 := by
  obtain ⟨hauthenticated, hclock, hapi⟩ := h
  rcases op with op | op
  · cases op with
    | refused kind =>
      obtain ⟨-, hauthenticated₁, hclock₁, hapi₁⟩ :=
        setRefusals_same u kind ((u.refusals kind).admitted u.clock.unixMs).2
      obtain ⟨-, hauthenticated₂, hclock₂, hapi₂⟩ :=
        setRefusals_same v kind ((v.refusals kind).admitted v.clock.unixMs).2
      refine ⟨rfl, (hauthenticated₂.trans hauthenticated).trans hauthenticated₁.symm, ?_,
        (hapi₂.trans hapi).trans hapi₁.symm⟩
      exact ((congrArg Clock.authenticatedMs hclock₂).trans hclock).trans
        (congrArg Clock.authenticatedMs hclock₁).symm
    | tryAcquire bucket =>
      cases bucket with
      | shared => cases hop
      | authenticated =>
        have hacquire : v.authenticated.tryAcquire v.clock.authenticatedMs =
            u.authenticated.tryAcquire u.clock.authenticatedMs := by rw [hauthenticated, hclock]
        exact ⟨congrArg Prod.snd hacquire.symm, congrArg Prod.fst hacquire, hclock, hapi⟩
  · have hperform : performApi op v.api = performApi op u.api := by rw [hapi]
    exact ⟨(congrArg Prod.fst hperform).symm, hauthenticated, hclock, congrArg Prod.snd hperform⟩

/-- The requests without the token, taken out of a run, leave a run in which all others do as they
did: they draw from the same bucket, get the same answers and leave the application as it was. -/
theorem unauthenticated_purged {token : List Char} (htoken : config.token = some token)
    {env' : Env τ} (hsame : SameForAgent env env')
    (h : Runs performApi driftApi config env as s) :
    ∃ q : Pool (Op ApiOp) (Env τ) Thread Request Response,
      Runs performApi driftApi config env'
        (as.filter fun a => a.input.all fun r => bearerMatches r.headers token) q ∧
      SameForAgent s.env q.env ∧
      ∀ t, q.procs t = (s.procs t).filter fun p => bearerMatches p.1.headers token := by
  have hhidden (r : Request) (hbearer : bearerMatches r.headers token = false) :
      (buildApp config r).Only Unprivileged := by
    refine buildApp_only config r (fun _ => ⟨trivial, trivial⟩) (fun _ => ?_) (fun _ => trivial)
      fun htrusted => ?_
    · change bucketOf config.token r = .shared
      rw [htoken]
      exact if_neg (by rw [hbearer]; exact Bool.false_ne_true)
    · rw [(bearerMatches_iff _ _).mpr (htrusted.authorized token htoken)] at hbearer
      cases hbearer
  have hshown (r : Request) (hbearer : bearerMatches r.headers token = true) :
      (buildApp config r).Only Privileged := by
    refine buildApp_only config r (fun _ => ⟨trivial, trivial⟩) (fun _ => ?_) (fun _ => trivial)
      fun _ _ _ => trivial
    change bucketOf config.token r = .authenticated
    rw [htoken]
    exact if_pos hbearer
  have hdrift {u u' v : Env τ} (hsame : SameForAgent u v) (hdrift : Drift driftApi u u') :
      ∃ v', Drift driftApi v v' ∧ SameForAgent u' v' := by
    obtain ⟨clock, api, hapi, rfl⟩ := hdrift
    refine ⟨{ v with clock := clock, api := api }, ⟨clock, api, ?_, rfl⟩,
      hsame.authenticated, rfl, rfl⟩
    rw [hsame.api]
    exact hapi
  obtain ⟨q, hq, hpurged⟩ := Pool.purge (fun hop hsame => hsame.unprivileged hop)
    (fun hop hsame => hsame.privileged hop) hdrift hhidden hshown hsame h
  exact ⟨q, hq, hpurged.env, hpurged.procs⟩

theorem unauthenticated_purged_ping :
    ∃ (q : Pool (Op Ping) (Env Nat) (Fin 3) Request Response)
      (next : Unit → Program (Op Ping) Response),
      Runs performPing (fun _ _ => True) pingConfig freshEnv
        [.start 2 agentRequest, .act 2 agentRequest] q ∧
        q.procs 2 = some (agentRequest, .call (.inr .ping) next) := by
  obtain ⟨s, next, hrun, hat⟩ := exists_run_served
  have htoken : pingConfig.token = some ['t'] := by decide
  obtain ⟨q, hq, -, hprocs⟩ := unauthenticated_purged htoken ⟨rfl, rfl, rfl⟩ hrun
  refine ⟨q, next, hq, ?_⟩
  rw [hprocs, hat]
  rfl

/-! ## Requests that a guard refuses -/

/-- What is done for a request that a guard ahead of the rate limiter refuses. -/
def Refusing {β : Type} : Op ApiOp β → Prop
  | .inl (.refused kind) => kind ≠ .auth
  | _ => False

/-- What is done for a request that none of them refuses. -/
def Serving {β : Type} : Op ApiOp β → Prop
  | .inl (.refused kind) => kind = .auth
  | _ => True

/-- The states that differ in what these guards logged. -/
structure SameForServed (env env' : Env τ) : Prop where
  clock : env'.clock = env.clock
  shared : env'.shared = env.shared
  authenticated : env'.authenticated = env.authenticated
  authRefusals : env'.authRefusals = env.authRefusals
  api : env'.api = env.api

theorem SameForServed.refusing {β : Type} {op : Op ApiOp β} {u v : Env τ} (hop : Refusing op)
    (h : SameForServed u v) : SameForServed (perform performApi op u).2 v := by
  rcases op with op | op
  · cases op with
    | refused kind =>
      cases kind with
      | auth => exact absurd rfl hop
      | host => exact ⟨h.clock, h.shared, h.authenticated, h.authRefusals, h.api⟩
      | origin => exact ⟨h.clock, h.shared, h.authenticated, h.authRefusals, h.api⟩
    | tryAcquire bucket => exact hop.elim
  · exact hop.elim

theorem SameForServed.serving {β : Type} {op : Op ApiOp β} {u v : Env τ} (hop : Serving op)
    (h : SameForServed u v) :
    (perform performApi op u).1 = (perform performApi op v).1 ∧
      SameForServed (perform performApi op u).2 (perform performApi op v).2 := by
  obtain ⟨clock, shared, authenticated, authRefusals, hostRefusals, originRefusals, lines, api⟩ := u
  obtain ⟨_, _, _, _, hostRefusals', originRefusals', lines', _⟩ := v
  obtain ⟨rfl, rfl, rfl, rfl, rfl⟩ := h
  rcases op with op | op
  · cases op with
    | refused kind =>
      cases kind with
      | auth => exact ⟨rfl, rfl, rfl, rfl, rfl, rfl⟩
      | host => cases hop
      | origin => cases hop
    | tryAcquire bucket => cases bucket <;> exact ⟨rfl, rfl, rfl, rfl, rfl, rfl⟩
  · exact ⟨rfl, rfl, rfl, rfl, rfl, rfl⟩

/-- The requests that a guard ahead of the rate limiter refuses, taken out of a run, leave a run in
which all others do as they did, whether or not the server asks for a token. -/
theorem refused_purged {env' : Env τ} (hsame : SameForServed env env')
    (h : Runs performApi driftApi config env as s) :
    ∃ q : Pool (Op ApiOp) (Env τ) Thread Request Response,
      Runs performApi driftApi config env' (as.filter fun a => a.input.all (passes config)) q ∧
      SameForServed s.env q.env ∧
      ∀ t, q.procs t = (s.procs t).filter fun p => passes config p.1 := by
  have hhidden (r : Request) (hpasses : passes config r = false) :
      (buildApp config r).Only Refusing := by
    refine buildApp_only config r (fun _ => ⟨nofun, nofun⟩) (fun htrue => ?_) (fun htrue => ?_)
      fun htrusted => ?_
    · cases hpasses.symm.trans htrue
    · cases hpasses.symm.trans htrue
    · cases hpasses.symm.trans htrusted.passes
  have hshown (r : Request) (hpasses : passes config r = true) :
      (buildApp config r).Only Serving := by
    refine buildApp_only config r (fun hfalse => ?_) (fun _ => trivial) (fun _ => rfl)
      fun _ _ _ => trivial
    cases hpasses.symm.trans hfalse
  have hdrift {u u' v : Env τ} (hsame : SameForServed u v) (hdrift : Drift driftApi u u') :
      ∃ v', Drift driftApi v v' ∧ SameForServed u' v' := by
    obtain ⟨clock, api, hapi, rfl⟩ := hdrift
    refine ⟨{ v with clock := clock, api := api }, ⟨clock, api, ?_, rfl⟩,
      rfl, hsame.shared, hsame.authenticated, hsame.authRefusals, rfl⟩
    rw [hsame.api]
    exact hapi
  obtain ⟨q, hq, hpurged⟩ := Pool.purge (fun hop hsame => hsame.refusing hop)
    (fun hop hsame => hsame.serving hop) hdrift hhidden hshown hsame h
  exact ⟨q, hq, hpurged.env, hpurged.procs⟩

theorem refused_purged_ping :
    ∃ (q : Pool (Op Ping) (Env Nat) (Fin 3) Request Response)
      (next : Unit → Program (Op Ping) Response),
      Runs performPing (fun _ _ => True) pingConfig freshEnv
        [.start 0 localRequest, .start 2 agentRequest, .act 0 localRequest, .act 2 agentRequest]
          q ∧
        q.procs 2 = some (agentRequest, .call (.inr .ping) next) := by
  obtain ⟨s, next, hrun, hat⟩ := exists_run_served
  obtain ⟨q, hq, -, hprocs⟩ := refused_purged ⟨rfl, rfl, rfl, rfl, rfl⟩ hrun
  refine ⟨q, next, hq, ?_⟩
  rw [hprocs, hat]
  rfl

end Victauri.Plugin.Mcp.Server
