import Victauri.Test.Discovery

/-!
# Which endpoint a client gets

The entries that a request names, and what `resolve_from` makes of them.
-/

namespace Victauri.Test.Discovery

/-! ## The scan -/

theorem of_mem_findLiveServersIn {liveness : UInt32 → Liveness} {isReachable : UInt16 → Bool}
    {entries : List Entry} {server : DiscoveredServer}
    (h : server ∈ findLiveServersIn liveness isReachable entries) :
    liveness server.pid = .own ∧ isReachable server.port = true := by
  obtain ⟨entry, -, hentry⟩ := List.mem_filterMap.mp h
  by_cases hown : (entry.trusted && liveness entry.pid = .own) = true
  · rw [if_pos hown] at hentry
    cases hport : entry.port with
    | none =>
      rw [hport] at hentry
      cases hentry
    | some port =>
      rw [hport, Option.bind_some] at hentry
      by_cases hreach : isReachable port = true
      · rw [if_pos hreach] at hentry
        cases hentry
        rw [Bool.and_eq_true, decide_eq_true_eq] at hown
        exact ⟨hown.2, hreach⟩
      · rw [if_neg hreach] at hentry
        cases hentry
  · rw [if_neg hown] at hentry
    cases hentry

theorem mem_of_mem_foldl_addNew {server : DiscoveredServer} (found servers : List DiscoveredServer)
    (h : server ∈ found.foldl addNew servers) : server ∈ servers ∨ server ∈ found := by
  induction found generalizing servers with
  | nil => exact Or.inl h
  | cons s found ih =>
    rcases ih (addNew servers s) h with hold | hnew
    · unfold addNew at hold
      by_cases hseen : (servers.any fun seen => decide (seen.pid = s.pid)) = true
      · rw [if_pos hseen] at hold
        exact Or.inl hold
      · rw [if_neg hseen, List.mem_append, List.mem_singleton] at hold
        cases hold with
        | inl hold => exact Or.inl hold
        | inr hs => exact Or.inr (hs ▸ List.mem_cons_self)
    · exact Or.inr (List.mem_cons_of_mem _ hnew)

/-- A dead process, or one of another user, gives no server. -/
theorem of_mem_findLiveServers {w : World} {server : DiscoveredServer}
    (h : server ∈ findLiveServers w) :
    w.liveness server.pid = .own ∧ w.isReachable server.port = true := by
  have hfound := mem_of_mem_foldl_addNew _ _ (List.mem_of_mem_filter h)
  cases hfound with
  | inl hnil => exact absurd hnil List.not_mem_nil
  | inr hmem =>
    obtain ⟨entries, -, hentry⟩ := List.mem_flatMap.mp hmem
    exact of_mem_findLiveServersIn hentry

/-! ## The request -/

/-- The entries that agree with the selector and the token of a request without a port. -/
def requested (token app : Option String) (servers : List DiscoveredServer) :
    List DiscoveredServer :=
  servers.filter fun server =>
    app.all server.matchesApp && token.all fun token => server.token = some token

theorem uniqueServerOnPort_eq_some {servers : List DiscoveredServer} {port : UInt16}
    {entry : DiscoveredServer} :
    uniqueServerOnPort servers port = some entry ↔
      (servers.filter fun server => server.port = port) = [entry] := by
  unfold uniqueServerOnPort
  constructor
  · intro h
    split at h
    · rename_i server hone
      rw [hone, Option.some.inj h]
    · exact absurd h.symm (Option.some_ne_none entry)
  · intro h
    rw [h]

theorem resolveFrom_port (port : UInt16) (token app : Option String)
    (servers : List DiscoveredServer) :
    resolveFrom (some port) token app servers =
      (portConflict port app servers).elim
        (.ok (port, token.or (uniqueTokenForPort servers port))) Except.error := by
  cases h : portConflict port app servers with
  | none => simp [resolveFrom, h]
  | some why => simp [resolveFrom, h]

theorem portConflict_eq_none {port : UInt16} {servers : List DiscoveredServer}
    {entry : DiscoveredServer} {app : String}
    (hone : (servers.filter fun server => server.port = port) = [entry])
    (h : portConflict port (some app) servers = none) :
    entry.identifier = none ∧ entry.productName = none ∨ entry.matchesApp app = true := by
  unfold portConflict at h
  rw [uniqueServerOnPort_eq_some.mpr hone] at h
  by_cases hmatch : entry.matchesApp app = true
  · exact Or.inr hmatch
  · left
    cases hid : entry.identifier with
    | some id => simp [hid, hmatch] at h
    | none =>
      cases hname : entry.productName with
      | some name => simp [hid, hname, hmatch] at h
      | none => exact ⟨rfl, rfl⟩

/-- Without a port the request is resolved exactly where one entry agrees with it. -/
theorem resolveFrom_noPort (token app : Option String) (servers : List DiscoveredServer) :
    (∀ entry, requested token app servers = [entry] →
      resolveFrom none token app servers = .ok (entry.port, entry.token)) ∧
    ((∀ entry, requested token app servers ≠ [entry]) →
      ∃ message, resolveFrom none token app servers = .error message) := by
  cases token with
  | none =>
    have hrequested : requested none app servers =
        servers.filter fun server => app.all server.matchesApp := by
      simp [requested]
    rw [hrequested]
    constructor
    · intro entry hone
      simp only [resolveFrom, hone]
    · intro hmany
      simp only [resolveFrom]
      split
      · rename_i one hone
        exact absurd hone (hmany one)
      · exact ⟨_, rfl⟩
      · exact ⟨_, rfl⟩
      · exact ⟨_, rfl⟩
  | some token =>
    have hrequested : requested (some token) app servers =
        (servers.filter fun server => app.all server.matchesApp).filter fun server =>
          server.token = some token := by
      simp [requested, List.filter_filter, Bool.and_comm]
    constructor
    · intro entry hone
      have hmem : entry ∈ requested (some token) app servers := by
        rw [hone]
        exact List.mem_singleton_self entry
      have htoken : entry.token = some token := by
        simp only [requested, List.mem_filter, Bool.and_eq_true, Option.all_some,
          decide_eq_true_eq] at hmem
        exact hmem.2.2
      rw [hrequested] at hone
      simp only [resolveFrom, hone, htoken]
    · intro hmany
      rw [hrequested] at hmany
      simp only [resolveFrom]
      split
      · rename_i one hone
        exact absurd hone (hmany one)
      · exact ⟨_, rfl⟩
      · exact ⟨_, rfl⟩

/-! ## The endpoint -/

/-- A token is paired with a port only as the request and the entries pair them. -/
theorem resolveFrom_pairs (explicitPort : Option UInt16) (token app : Option String)
    (servers : List DiscoveredServer) :
    (∀ port, explicitPort = some port → ∀ endpoint,
      resolveFrom explicitPort token app servers = .ok endpoint →
        endpoint.1 = port ∧
        (∀ t, token = some t → endpoint.2 = some t) ∧
        (token = none → ∀ t, endpoint.2 = some t ↔ ∃ entry,
          (servers.filter fun server => server.port = port) = [entry] ∧ entry.token = some t) ∧
        (∀ a, app = some a → ∀ entry,
          (servers.filter fun server => server.port = port) = [entry] →
            entry.identifier = none ∧ entry.productName = none ∨ entry.matchesApp a = true)) ∧
    (explicitPort = none →
      (∀ entry, requested token app servers = [entry] →
        resolveFrom explicitPort token app servers = .ok (entry.port, entry.token)) ∧
      ((requested token app servers).length ≠ 1 →
        ∃ message, resolveFrom explicitPort token app servers = .error message)) := by
  constructor
  · rintro port rfl endpoint h
    rw [resolveFrom_port] at h
    cases hconflict : portConflict port app servers with
    | some why =>
      rw [hconflict] at h
      cases h
    | none =>
      rw [hconflict] at h
      cases h
      refine ⟨rfl, ?_, ?_, ?_⟩
      · rintro t rfl
        rfl
      · rintro rfl t
        change (uniqueServerOnPort servers port).bind DiscoveredServer.token = some t ↔ _
        simp only [Option.bind_eq_some_iff, uniqueServerOnPort_eq_some]
      · rintro a rfl entry hone
        exact portConflict_eq_none hone hconflict
  · rintro rfl
    have hresolve := resolveFrom_noPort token app servers
    refine ⟨hresolve.1, ?_⟩
    intro hlength
    apply hresolve.2
    intro entry hone
    rw [hone] at hlength
    exact hlength rfl

/-- Two live entries on the default port. -/
def contested : List DiscoveredServer :=
  [{ pid := 20, port := 7373, token := some "a", identifier := some "com.a.app",
     productName := some "A" },
   { pid := 21, port := 7373, token := some "b", identifier := some "com.b.app",
     productName := some "B" }]

/-- The port is taken as named though both entries advertise it, and a selector is enough to send
a token to it. -/
theorem resolveFrom_contested :
    (contested.filter fun server => server.port = 7373) = contested ∧
      resolveFrom (some 7373) none none contested = .ok (7373, none) ∧
      resolveFrom none none (some "com.a.app") contested = .ok (7373, some "a") := by
  decide

/-- Where the scan is left out, its result would not be looked at. -/
theorem resolveFrom_named (port : UInt16) (token : String) (servers : List DiscoveredServer) :
    resolveFrom (some port) (some token) none servers = .ok (port, some token) := by
  rw [resolveFrom_port]
  rfl

theorem tryResolveConnection_eq (w : World) (port : Option UInt16) (token app : Option String)
    (manifestIdentifier : Option String) :
    tryResolveConnection w port token app manifestIdentifier =
      resolveInCrate port token app (findLiveServers w) manifestIdentifier := by
  unfold tryResolveConnection
  match port, token, app with
  | some port, some token, none =>
    unfold resolveInCrate
    simp [resolveFrom_named]
  | none, _, _ => rfl
  | some _, none, _ => rfl
  | some _, some _, some _ => rfl

end Victauri.Test.Discovery
