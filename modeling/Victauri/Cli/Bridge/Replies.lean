import Victauri.Cli.Bridge

/-!
# The replies to a line

Over every run of a line's program, whatever discovery and the posts answer: how often a message is
posted, after which outcomes it is posted again, and which replies are written.
-/

namespace Victauri.Cli.Bridge

open Core.Json Library Program

/-! ## Posts -/

def Posts (msg : Value) (e : Exchange Op) (result : PostResult) : Prop :=
  ∃ info session, e = ⟨PostResult, .post info session msg, result⟩

def isPost : Exchange Op → Bool
  | ⟨_, .post _ _ _, _⟩ => true
  | _ => false

/-- The outcome shows that the message did not run. -/
def notRun : PostResult → Bool
  | .ok out => out.staleSession
  | .error err => err.isConnect

/-- If both calls post `msg`, the first outcome shows that it did not run. -/
def MayFollow (msg : Value) (e later : Exchange Op) : Prop :=
  ∀ first second, Posts msg e first → Posts msg later second → notRun first = true

theorem isPost_of_posts {msg : Value} {e : Exchange Op} {result : PostResult}
    (h : Posts msg e result) : isPost e = true := by
  obtain ⟨info, session, rfl⟩ := h
  rfl

theorem posts_post {info : ServerInfo} {session : Option String} {msg : Value}
    {result : PostResult} : Posts msg ⟨PostResult, .post info session msg, result⟩ result :=
  ⟨info, session, rfl⟩

theorem posts_inj {msg other : Value} {info : ServerInfo} {session : Option String}
    {result r : PostResult} (h : Posts msg ⟨PostResult, .post info session other, result⟩ r) :
    msg = other ∧ r = result := by
  obtain ⟨_, _, he⟩ := h
  injection he with _ hop hresult
  injection hop with _ _ hmsg
  exact ⟨hmsg.symm, hresult.symm⟩

/-- Calls before the message's own post: a handshake at most. -/
structure Opening (n : Nat) (pre : List (Exchange Op)) : Prop where
  few : pre.countP isPost ≤ n
  own : ∀ e ∈ pre, ∀ msg result, Posts msg e result →
    method msg = "initialize" ∨ method msg = "notifications/initialized"

theorem Opening.nil : Opening 0 [] :=
  ⟨Nat.le_refl 0, fun _ h => absurd h List.not_mem_nil⟩

theorem Opening.mono {n m : Nat} {pre : List (Exchange Op)} (h : Opening n pre) (hle : n ≤ m) :
    Opening m pre :=
  ⟨Nat.le_trans h.few hle, h.own⟩

theorem Opening.quiet {n : Nat} {e : Exchange Op} {pre : List (Exchange Op)}
    (he : isPost e = false) (h : Opening n pre) : Opening n (e :: pre) := by
  constructor
  · rw [List.countP_cons_of_neg (by simp [he])]
    exact h.few
  · intro e' hmem msg result hposts
    rcases List.mem_cons.mp hmem with rfl | hmem
    · exact absurd (isPost_of_posts hposts) (by simp [he])
    · exact h.own e' hmem msg result hposts

theorem Opening.post {n : Nat} {info : ServerInfo} {session : Option String} {msg : Value}
    {result : PostResult} {pre : List (Exchange Op)}
    (hmsg : method msg = "initialize" ∨ method msg = "notifications/initialized")
    (h : Opening n pre) :
    Opening (n + 1) (⟨PostResult, .post info session msg, result⟩ :: pre) := by
  constructor
  · rw [List.countP_cons_of_pos rfl]
    exact Nat.succ_le_succ h.few
  · intro e' hmem other r hposts
    rcases List.mem_cons.mp hmem with rfl | hmem
    · rw [(posts_inj hposts).1]
      exact hmsg
    · exact h.own e' hmem other r hposts

theorem Opening.append {n m : Nat} {pre rest : List (Exchange Op)} (h : Opening n pre)
    (hrest : Opening m rest) : Opening (n + m) (pre ++ rest) := by
  constructor
  · rw [List.countP_append]
    exact Nat.add_le_add h.few hrest.few
  · intro e hmem
    rcases List.mem_append.mp hmem with hmem | hmem
    · exact h.own e hmem
    · exact hrest.own e hmem

section Session

variable {α : Type} {t : List (Exchange Op)} {a : α}

theorem needed_trace {next : Bool → Program Op α} (h : Trace (needed next) t a) :
    ∃ pre rest answer, t = pre ++ rest ∧ Trace (next answer) rest a ∧ Opening 0 pre := by
  obtain ⟨stateless, t, rfl, hnext⟩ := h.of_call
  cases stateless with
  | true => exact ⟨[_], t, false, rfl, hnext, .quiet rfl .nil⟩
  | false =>
      obtain ⟨session, rest, rfl, hrest⟩ := Trace.of_call hnext
      exact ⟨[_, _], rest, session.isNone, rfl, hrest, .quiet rfl (.quiet rfl .nil)⟩

theorem handshake_trace {info : ServerInfo} {init : InitMessage} {next : Program Op α}
    (h : Trace (handshake info init.msg next) t a) :
    ∃ pre rest, t = pre ++ rest ∧ Trace next rest a ∧ Opening 2 pre := by
  have hnote : method (notification "notifications/initialized") = "initialize" ∨
      method (notification "notifications/initialized") = "notifications/initialized" :=
    Or.inr rfl
  obtain ⟨result, t, rfl, hresult⟩ := h.of_call
  have hinit {n : Nat} {pre : List (Exchange Op)} (hpre : Opening n pre) :
      Opening (n + 1) (⟨PostResult, .post info none init.msg, result⟩ :: pre) :=
    hpre.post (Or.inl init.isInitialize)
  cases result with
  | error err => exact ⟨[_], t, rfl, hresult, (hinit .nil).mono (by decide)⟩
  | ok out =>
      dsimp only at hresult
      cases hsession : out.sessionId with
      | some session =>
          rw [hsession] at hresult
          obtain ⟨_, rest, rfl, hnext⟩ := Trace.of_call hresult
          obtain ⟨_, rest, rfl, hlast⟩ := Trace.of_call hnext
          exact ⟨[_, _, _], rest, rfl, hlast, hinit (.quiet rfl (.post hnote .nil))⟩
      | none =>
          rw [hsession] at hresult
          cases hstale : out.staleSession with
          | true =>
              simp only [hstale, if_true] at hresult
              obtain ⟨_, rest, rfl, hlast⟩ := Trace.of_call hresult
              exact ⟨[_, _], rest, rfl, hlast, hinit (.post hnote .nil)⟩
          | false =>
              simp only [hstale, Bool.false_eq_true, if_false] at hresult
              obtain ⟨_, rest, rfl, hnext⟩ := Trace.of_call hresult
              obtain ⟨_, rest, rfl, hlast⟩ := Trace.of_call hnext
              exact ⟨[_, _, _], rest, rfl, hlast, hinit (.quiet rfl (.post hnote .nil))⟩

theorem ensureBackendSession_trace {info : ServerInfo} {next : Program Op α}
    (h : Trace (ensureBackendSession info next) t a) :
    ∃ pre rest, t = pre ++ rest ∧ Trace next rest a ∧ Opening 2 pre := by
  obtain ⟨pre, t, first, rfl, hfirst, hpre⟩ := needed_trace h
  cases first with
  | false => exact ⟨pre, t, rfl, hfirst, hpre.mono (by decide)⟩
  | true =>
      rw [if_neg (by decide)] at hfirst
      obtain ⟨again, t, second, rfl, hsecond, hagain⟩ := needed_trace hfirst
      have hboth := hpre.append hagain
      cases second with
      | false => exact ⟨pre ++ again, t, by simp, hsecond, hboth.mono (by decide)⟩
      | true =>
          obtain ⟨cached, t, rfl, hcached⟩ := Trace.of_call hsecond
          have hasked : Opening 0 (pre ++ again ++ [⟨_, .cachedInit, cached⟩]) :=
            hboth.append (.quiet rfl .nil)
          cases cached with
          | none => exact ⟨pre ++ again ++ [_], t, by simp, hcached, hasked.mono (by decide)⟩
          | some init =>
              obtain ⟨shake, t, rfl, hlast, hshake⟩ := handshake_trace hcached
              exact ⟨pre ++ again ++ [_] ++ shake, t, by simp, hlast,
                (hasked.append hshake).mono (by decide)⟩

end Session

/-! ## Responses -/

section Responses

variable (same : Value → Value → Bool)

/-- The responses among the lines that carry the id of `msg`. -/
def responsesTo (msg : Value) (lines : List Value) : Nat :=
  lines.countP fun v => (v.get "method").isNone && sameId same v msg

/-- Once a request is answered with lines, these hold a response to it, and one only unless a
backend sent two. -/
def Settles (msg : Value) (t : List (Exchange Op)) : ForwardResult → Prop
  | .payloads lines => expectsReply msg = true →
      1 ≤ responsesTo same msg lines ∧
        ((∀ e ∈ t, ∀ out, Posts msg e (.ok out) → responsesTo same msg out.payloads ≤ 1) →
          responsesTo same msg lines ≤ 1)
  | _ => True

structure Forwarded (msg : Value) (n : Nat) (t : List (Exchange Op)) (result : ForwardResult) :
    Prop where
  few : t.countP isPost ≤ n
  resent : method msg = "tools/call" → t.Pairwise (MayFollow msg)
  settles : Settles same msg t result

variable {same} {msg : Value} {n : Nat} {t : List (Exchange Op)} {result : ForwardResult}

theorem Settles.append (pre : List (Exchange Op)) (h : Settles same msg t result) :
    Settles same msg (pre ++ t) result := by
  cases result with
  | payloads lines =>
      intro hrequest
      refine ⟨(h hrequest).1, fun hone => (h hrequest).2 fun e hmem => ?_⟩
      exact hone e (List.mem_append_right pre hmem)
  | accepted => trivial
  | unreachable why => trivial

theorem Forwarded.opening {m : Nat} {pre : List (Exchange Op)} (hpre : Opening m pre)
    (h : Forwarded same msg n t result) : Forwarded same msg (m + n) (pre ++ t) result := by
  refine ⟨?_, fun hcall => ?_, h.settles.append pre⟩
  · rw [List.countP_append]
    exact Nat.add_le_add hpre.few h.few
  · have hnever : ∀ e ∈ pre, ∀ r, ¬ Posts msg e r := by
      intro e hmem r hposts
      rcases hpre.own e hmem msg r hposts with hm | hm <;>
        exact absurd (hcall.symm.trans hm) (by decide)
    refine List.pairwise_append.mpr ⟨?_, h.resent hcall, ?_⟩
    · exact List.pairwise_of_forall_mem_list fun e hmem _ _ first _ hfirst =>
        absurd hfirst (hnever e hmem first)
    · exact fun e hmem _ _ first _ hfirst => absurd hfirst (hnever e hmem first)

theorem Forwarded.quiet {e : Exchange Op} (he : isPost e = false)
    (h : Forwarded same msg n t result) : Forwarded same msg n (e :: t) result := by
  have hopening := h.opening (.quiet he .nil)
  rw [Nat.zero_add] at hopening
  exact hopening

theorem Forwarded.mono {m : Nat} (h : Forwarded same msg n t result) (hle : n ≤ m) :
    Forwarded same msg m t result :=
  ⟨Nat.le_trans h.few hle, h.resent, h.settles⟩

/-- The message's own post, after which it may be posted again. -/
theorem Forwarded.again {info : ServerInfo} {session : Option String} {r : PostResult}
    (hrun : method msg = "tools/call" → notRun r = true) (h : Forwarded same msg n t result) :
    Forwarded same msg (n + 1) (⟨PostResult, .post info session msg, r⟩ :: t) result := by
  refine ⟨?_, fun hcall => ?_, h.settles.append [_]⟩
  · rw [List.countP_cons_of_pos rfl]
    exact Nat.succ_le_succ h.few
  · refine List.pairwise_cons.mpr ⟨fun later _ first _ hfirst _ => ?_, h.resent hcall⟩
    rw [(posts_inj hfirst).2]
    exact hrun hcall

/-- The message's own post, the last of all. -/
theorem Forwarded.last {info : ServerInfo} {session : Option String} {r : PostResult}
    (hquiet : ∀ e ∈ t, isPost e = false)
    (hsettles : Settles same msg (⟨PostResult, .post info session msg, r⟩ :: t) result) :
    Forwarded same msg 1 (⟨PostResult, .post info session msg, r⟩ :: t) result := by
  have hnone : t.countP isPost = 0 := List.countP_eq_zero.mpr fun e he => by simp [hquiet e he]
  refine ⟨?_, fun _ => ?_, hsettles⟩
  · exact Nat.le_of_eq ((List.countP_cons_of_pos rfl).trans (congrArg Nat.succ hnone))
  · refine List.pairwise_cons.mpr ⟨fun later hmem _ _ _ hsecond => ?_, ?_⟩
    · exact absurd (isPost_of_posts hsecond) (by simp [hquiet later hmem])
    · refine List.pairwise_of_forall_mem_list fun e hmem _ _ _ _ hfirst _ => ?_
      exact absurd (isPost_of_posts hfirst) (by simp [hquiet e hmem])

/-- A response that carries the id of `msg`. -/
def ReplyTo (msg reply : Value) : Prop :=
  reply.get "method" = none ∧ reply.get "id" = some (id msg)

theorem replyTo_errorReply (code : Int) (message : String) :
    ReplyTo msg (errorReply (id msg) code message) :=
  ⟨rfl, rfl⟩

theorem replyTo_errorForRequest (code : Int) (message : String) :
    ReplyTo msg (errorForRequest msg code message) :=
  replyTo_errorReply code message

theorem replyTo_resultReply (value : Value) : ReplyTo msg (resultReply (id msg) value) :=
  ⟨rfl, rfl⟩

/-! ## Attempts -/

variable (hsame : ∀ v, same v v = true)

include hsame in
theorem responsesTo_reply {reply : Value} (h : ReplyTo msg reply)
    (hrequest : expectsReply msg = true) : responsesTo same msg [reply] = 1 := by
  obtain ⟨hmethod, hid⟩ := h
  have hsome : (msg.get "id").isSome = true := (Bool.and_eq_true_iff.mp hrequest).2
  obtain ⟨i, hi⟩ := Option.isSome_iff_exists.mp hsome
  have hown : id msg = i := by rw [id, hi, Option.getD_some]
  simp [responsesTo, sameId, hmethod, hid, hi, hown, hsame]

include hsame in
theorem settles_reply {reply : Value} (h : ReplyTo msg reply) :
    Settles same msg t (.payloads [reply]) := by
  intro hrequest
  rw [responsesTo_reply hsame h hrequest]
  exact ⟨Nat.le_refl 1, fun _ => Nat.le_refl 1⟩

include hsame in
theorem answered_settles {info : ServerInfo} {session : Option String} {out : PostOutcome} :
    Settles same msg (⟨PostResult, .post info session msg, .ok out⟩ :: t)
      (answered same msg out) := by
  unfold answered
  by_cases haccepted : out.accepted = true
  · rw [if_pos haccepted]
    by_cases hrequest : (!expectsReply msg) = true
    · rw [if_pos hrequest]
      trivial
    · rw [if_neg hrequest]
      exact settles_reply hsame (replyTo_errorForRequest _ _)
  rw [if_neg haccepted]
  by_cases hempty : (expectsReply msg && out.payloads.isEmpty) = true
  · rw [if_pos hempty]
    exact settles_reply hsame (replyTo_errorForRequest _ _)
  rw [if_neg hempty]
  by_cases hsilent : (expectsReply msg && !answersRequest same out.payloads msg) = true
  · -- none of the payloads answers, and the error that follows them does
    rw [if_pos hsilent]
    intro hrequest
    have hnone : responsesTo same msg out.payloads = 0 := by
      refine List.countP_eq_zero.mpr fun v hv hanswers => ?_
      have hany : answersRequest same out.payloads msg = true :=
        List.any_eq_true.mpr ⟨v, hv, hanswers⟩
      simp [hany] at hsilent
    have hone : responsesTo same msg (out.payloads ++ [errorForRequest msg (-32603)
        ("backend ended the response without answering this request; a tool call may already " ++
          "have taken effect")]) = 1 := by
      rw [responsesTo, List.countP_append]
      change responsesTo same msg out.payloads + responsesTo same msg [_] = 1
      rw [hnone, responsesTo_reply hsame (replyTo_errorForRequest _ _) hrequest]
    rw [hone]
    exact ⟨Nat.le_refl 1, fun _ => Nat.le_refl 1⟩
  · rw [if_neg hsilent]
    intro hrequest
    have hanswers : answersRequest same out.payloads msg = true := by
      simpa [hrequest] using hsilent
    obtain ⟨v, hv, hanswer⟩ := List.any_eq_true.mp hanswers
    refine ⟨List.countP_pos_iff.mpr ⟨v, hv, hanswer⟩, fun hone => ?_⟩
    exact hone _ List.mem_cons_self out posts_post

/-- The session that came with an answer is kept, and the forward is over. -/
theorem sessionKept_trace {out : PostOutcome}
    (h : Trace (match out.sessionId with
      | some fresh => .call (Op.setSession fresh) fun _ => .done (answered same msg out)
      | none => .done (answered same msg out)) t result) :
    (∀ e ∈ t, isPost e = false) ∧ result = answered same msg out := by
  cases hsession : out.sessionId with
  | some fresh =>
      rw [hsession] at h
      obtain ⟨_, t, rfl, hdone⟩ := Trace.of_call h
      obtain ⟨rfl, rfl⟩ := Trace.of_done hdone
      refine ⟨fun e hmem => ?_, rfl⟩
      rw [List.mem_singleton.mp hmem]
      rfl
  | none =>
      rw [hsession] at h
      obtain ⟨rfl, rfl⟩ := Trace.of_done h
      exact ⟨fun e hmem => absurd hmem List.not_mem_nil, rfl⟩

include hsame in
theorem attempts_forwarded {left : Nat} {info : ServerInfo}
    (h : Trace (attempts same msg left info) t result) :
    Forwarded same msg (3 * left) t result := by
  induction left generalizing info t with
  | zero =>
      obtain ⟨rfl, rfl⟩ := h.of_done
      exact ⟨Nat.le_refl 0, fun _ => .nil, trivial⟩
  | succ left ih =>
      obtain ⟨pre, t, rfl, hbody, hpre⟩ := ensureBackendSession_trace h
      suffices hown : Forwarded same msg (3 * left + 1) t result by
        have hall := hown.opening hpre
        rw [show 2 + (3 * left + 1) = 3 * (left + 1) by omega] at hall
        exact hall
      obtain ⟨session, t, rfl, hpost⟩ := hbody.of_call
      refine Forwarded.quiet rfl ?_
      obtain ⟨r, t, rfl, hresult⟩ := Trace.of_call hpost
      cases r with
      | ok out =>
          dsimp only at hresult
          by_cases hstale : out.staleSession = true
          · rw [if_pos hstale] at hresult
            refine Forwarded.again (fun _ => hstale) ?_
            obtain ⟨_, t, rfl, hcleared⟩ := Trace.of_call hresult
            refine Forwarded.quiet rfl ?_
            by_cases hleft : 0 < left
            · rw [if_pos hleft] at hcleared
              obtain ⟨found, t, rfl, hfound⟩ := Trace.of_call hcleared
              exact (ih hfound).quiet rfl
            · rw [if_neg hleft] at hcleared
              exact ih hcleared
          · rw [if_neg hstale] at hresult
            obtain ⟨hquiet, rfl⟩ := sessionKept_trace hresult
            exact (Forwarded.last hquiet (answered_settles hsame)).mono (by omega)
      | error err =>
          dsimp only at hresult
          obtain ⟨_, t, rfl, hcleared⟩ := Trace.of_call hresult
          by_cases hreplay : (!mayReplay msg err) = true
          · rw [if_pos hreplay] at hcleared
            obtain ⟨found, t, rfl, hdone⟩ := Trace.of_call hcleared
            obtain ⟨rfl, rfl⟩ := Trace.of_done hdone
            refine (Forwarded.last ?_ (settles_reply hsame (replyTo_errorForRequest _ _))).mono
              (by omega)
            intro e hmem
            rcases List.mem_cons.mp hmem with rfl | hmem
            · rfl
            · rw [List.mem_singleton.mp hmem]
              rfl
          · rw [if_neg hreplay] at hcleared
            refine Forwarded.again (fun hcall => ?_) (Forwarded.quiet rfl ?_)
            · have hconnect : err.isConnect = true := by simpa [mayReplay, hcall] using hreplay
              exact hconnect
            by_cases hleft : 0 < left
            · rw [if_pos hleft] at hcleared
              obtain ⟨found, t, rfl, hfound⟩ := Trace.of_call hcleared
              refine Forwarded.quiet rfl ?_
              cases found with
              | some other => exact ih hfound
              | none =>
                  obtain ⟨rfl, rfl⟩ := Trace.of_done hfound
                  exact ⟨Nat.zero_le _, fun _ => .nil, trivial⟩
            · rw [if_neg hleft] at hcleared
              exact ih hcleared

include hsame in
theorem forwardWithRetries_forwarded (h : Trace (forwardWithRetries same msg) t result) :
    Forwarded same msg 12 t result := by
  obtain ⟨found, t, rfl, hfound⟩ := h.of_call
  refine Forwarded.quiet rfl ?_
  have hover {why : String} (hdone : Trace (.done (.unreachable why) : Program Op _) t result) :
      Forwarded same msg 12 t result := by
    obtain ⟨rfl, rfl⟩ := hdone.of_done
    exact ⟨Nat.zero_le 12, fun _ => .nil, trivial⟩
  cases found with
  | one info => exact attempts_forwarded hsame hfound
  | none => exact hover hfound
  | ambiguous labels => exact hover hfound
  | pinDown port => exact hover hfound
  | refused why => exact hover hfound

/-! ## Lines -/

/-- An element of a batch that is answered: it is no notification and no response. -/
def isOwed (item : Value) : Bool :=
  !((item.get "method").isSome && (item.get "id").isNone || isClientResponse item)

variable (same) in
/-- What the run of a line's program must keep to. -/
structure Served (msg : Value) (t : List (Exchange Op)) (lines : List Value) : Prop where
  resent : method msg = "tools/call" → t.Pairwise (MayFollow msg)
  bounded : t.countP isPost ≤ 12
  replied : expectsReply msg = true → 1 ≤ responsesTo same msg lines
  once : expectsReply msg = true →
    (∀ e ∈ t, ∀ out, Posts msg e (.ok out) → responsesTo same msg out.payloads ≤ 1) →
    responsesTo same msg lines ≤ 1
  batch : ∀ items, msg = .array items → items ≠ [] →
    ∃ replies, List.Forall₂ ReplyTo (items.filter isOwed) replies ∧
      lines = if replies = [] then [] else [.array replies]
  silent : isOwed msg = false → ∀ v ∈ lines, (v.get "method").isSome = true

include hsame in
theorem requestReplies_settles (fallbackTools : List Value) (h : Settles same msg t result) :
    Settles same msg t (.payloads (requestReplies fallbackTools msg result)) := by
  unfold requestReplies
  by_cases htools : method msg = "tools/list"
  · rw [if_pos htools]
    cases result with
    | payloads lines => exact h
    | accepted => exact settles_reply hsame (replyTo_resultReply _)
    | unreachable why => exact settles_reply hsame (replyTo_resultReply _)
  rw [if_neg htools]
  by_cases hlist : method msg = "resources/list" ∨ method msg = "resources/templates/list" ∨
      method msg = "prompts/list"
  · rw [if_pos hlist]
    cases result with
    | payloads lines => exact h
    | accepted => exact settles_reply hsame (replyTo_resultReply _)
    | unreachable why => exact settles_reply hsame (replyTo_resultReply _)
  · rw [if_neg hlist]
    cases result with
    | payloads lines => exact h
    | accepted => exact settles_reply hsame (replyTo_errorForRequest _ _)
    | unreachable why => exact settles_reply hsame (replyTo_errorForRequest _ _)

/-- A batch's replies, element by element. -/
theorem batchElement_replyTo (items : List Value) :
    List.Forall₂ ReplyTo (items.filter isOwed) (items.filterMap batchElement) := by
  induction items with
  | nil => exact .nil
  | cons item items ih =>
      have hcase : (isOwed item = true ∧ ∃ reply, batchElement item = some reply ∧
          ReplyTo item reply) ∨ (isOwed item = false ∧ batchElement item = none) := by
        cases item with
        | object members =>
            by_cases hdrop : (((Value.object members).get "method").isSome &&
                ((Value.object members).get "id").isNone ||
                  isClientResponse (.object members)) = true
            · exact Or.inr ⟨by rw [isOwed, hdrop]; rfl, if_pos hdrop⟩
            · refine Or.inl ⟨?_, _, if_neg hdrop, replyTo_errorReply _ _⟩
              rw [isOwed, Bool.eq_false_iff.mpr hdrop]
              rfl
        | null => exact Or.inl ⟨rfl, _, rfl, replyTo_errorReply _ _⟩
        | bool b => exact Or.inl ⟨rfl, _, rfl, replyTo_errorReply _ _⟩
        | number n => exact Or.inl ⟨rfl, _, rfl, replyTo_errorReply _ _⟩
        | string text => exact Or.inl ⟨rfl, _, rfl, replyTo_errorReply _ _⟩
        | array values => exact Or.inl ⟨rfl, _, rfl, replyTo_errorReply _ _⟩
      rcases hcase with ⟨howed, reply, hreply, hto⟩ | ⟨howed, hreply⟩
      · rw [List.filter_cons_of_pos howed, List.filterMap_cons_some hreply]
        exact .cons hto ih
      · rw [List.filter_cons_of_neg (by simp [howed]), List.filterMap_cons_none hreply]
        exact ih

/-- A line that leads to no post, with what is written for it. -/
theorem served_of_done {lines : List Value}
    (harray : ∀ items, msg ≠ .array items) (hquiet : ∀ e ∈ t, isPost e = false)
    (hreplied : expectsReply msg = true → responsesTo same msg lines = 1)
    (hsilent : isOwed msg = false → ∀ v ∈ lines, (v.get "method").isSome = true) :
    Served same msg t lines := by
  have hnone : t.countP isPost = 0 := List.countP_eq_zero.mpr fun e he => by simp [hquiet e he]
  refine ⟨fun _ => ?_, ?_, fun h => ?_, fun h _ => ?_, fun items h => ?_, hsilent⟩
  · refine List.pairwise_of_forall_mem_list fun e hmem _ _ _ _ hfirst _ => ?_
    exact absurd (isPost_of_posts hfirst) (by simp [hquiet e hmem])
  · rw [hnone]
    exact Nat.zero_le 12
  · exact Nat.le_of_eq (hreplied h).symm
  · exact Nat.le_of_eq (hreplied h)
  · exact absurd h (harray items)

/-- A line that is forwarded. -/
theorem served_of_forwarded {lines : List Value} (harray : ∀ items, msg ≠ .array items)
    (h : Forwarded same msg 12 t result)
    (hsettles : expectsReply msg = true → Settles same msg t (.payloads lines))
    (hsilent : isOwed msg = false → lines = []) : Served same msg t lines := by
  refine ⟨h.resent, h.few, fun hrequest => ?_, fun hrequest => ?_, fun items hitems => ?_,
    fun howed v hv => ?_⟩
  · exact (hsettles hrequest hrequest).1
  · exact (hsettles hrequest hrequest).2
  · exact absurd hitems (harray items)
  · rw [hsilent howed] at hv
    exact absurd hv List.not_mem_nil

theorem isOwed_of_expectsReply (h : expectsReply msg = true) : isOwed msg = true := by
  obtain ⟨hmethod, hid⟩ := Bool.and_eq_true_iff.mp h
  have hsome : (msg.get "id").isNone = false := by
    rw [← Option.not_isSome, hid]
    rfl
  have hmethod' : (msg.get "method").isNone = false := by
    rw [← Option.not_isSome, hmethod]
    rfl
  rw [isOwed, isClientResponse, hsome, hmethod', Bool.and_false, Bool.false_and]
  rfl

theorem announced_method (backendUp : Bool) :
    ∀ v ∈ (if backendUp then [notification "notifications/tools/list_changed",
      notification "notifications/resources/list_changed"] else []),
      (v.get "method").isSome = true := by
  cases backendUp <;> decide

/-- The acknowledgement of the bridge's own `initialize`, as a request. -/
def isAckRequest (msg : Value) : Bool :=
  decide (method msg = "notifications/initialized") && expectsReply msg

include hsame in
theorem message_served {fallbackTools lines : List Value} {backendUp permit queued : Bool}
    (harray : ∀ items, msg ≠ .array items) (hack : isAckRequest msg = false)
    (h : Trace (lineProgram same fallbackTools backendUp permit queued msg) t lines) :
    Served same msg t lines := by
  have hanswer {reply : Value} (hreply : ReplyTo msg reply) (howed : isOwed msg = true)
      (h : Trace (.done [reply] : Program Op _) t lines) : Served same msg t lines := by
    obtain ⟨rfl, rfl⟩ := h.of_done
    refine served_of_done harray (fun e he => absurd he List.not_mem_nil)
      (responsesTo_reply hsame hreply) fun hsilent => ?_
    exact absurd (howed.symm.trans hsilent) (by decide)
  have honeWay (hrequest : expectsReply msg = false)
      (h : Trace (if queued then (forwardWithRetries same msg).map fun _ => [] else .done []) t
        lines) : Served same msg t lines := by
    cases queued with
    | true =>
        obtain ⟨result, rfl, hforward⟩ := Trace.of_map h
        exact served_of_forwarded harray (forwardWithRetries_forwarded hsame hforward)
          (fun h => absurd (h.symm.trans hrequest) (by decide)) fun _ => rfl
    | false =>
        obtain ⟨rfl, rfl⟩ := Trace.of_done h
        exact served_of_done harray (fun e he => absurd he List.not_mem_nil)
          (fun h => absurd (h.symm.trans hrequest) (by decide))
          fun _ v hv => absurd hv List.not_mem_nil
  unfold lineProgram at h
  rw [handleLine.eq_2 _ _ _ harray] at h
  by_cases hmethod : (msg.get "method").isNone = true
  · rw [if_pos hmethod] at h
    have hrequest : expectsReply msg = false := by
      rw [expectsReply, ← Option.not_isNone, hmethod]
      rfl
    by_cases hresponse : isClientResponse msg = true
    · rw [if_pos hresponse] at h
      exact honeWay hrequest h
    · rw [if_neg hresponse] at h
      refine hanswer (replyTo_errorReply _ _) ?_ h
      rw [isOwed, ← Option.not_isNone, hmethod, Bool.eq_false_iff.mpr hresponse]
      rfl
  rw [if_neg hmethod] at h
  by_cases hdropped : (method msg = "initialize" ∨ method msg = "ping") ∧ expectsReply msg = false
  · rw [if_pos hdropped] at h
    obtain ⟨rfl, rfl⟩ := h.of_done
    exact served_of_done harray (fun e he => absurd he List.not_mem_nil)
      (fun h => absurd (h.symm.trans hdropped.2) (by decide))
      fun _ v hv => absurd hv List.not_mem_nil
  rw [if_neg hdropped] at h
  have hlocal (hm : method msg = "initialize" ∨ method msg = "ping") : isOwed msg = true := by
    refine isOwed_of_expectsReply ?_
    rw [← Bool.not_eq_false]
    exact fun hno => hdropped ⟨hm, hno⟩
  by_cases hinit : method msg = "initialize"
  · rw [dif_pos hinit] at h
    obtain ⟨_, t, rfl, hdone⟩ := Trace.of_call h
    obtain ⟨rfl, rfl⟩ := Trace.of_done hdone
    refine served_of_done harray (fun e he => ?_)
      (responsesTo_reply hsame (replyTo_resultReply _)) fun hsilent => ?_
    · rw [List.mem_singleton.mp he]
      rfl
    · exact absurd ((hlocal (Or.inl hinit)).symm.trans hsilent) (by decide)
  rw [dif_neg hinit] at h
  by_cases hready : method msg = "notifications/initialized"
  · rw [if_pos hready] at h
    obtain ⟨rfl, rfl⟩ := Trace.of_done h
    have hrequest : expectsReply msg = false := by simpa [isAckRequest, hready] using hack
    refine served_of_done harray (fun e he => absurd he List.not_mem_nil)
      (fun h => absurd (h.symm.trans hrequest) (by decide)) fun _ => ?_
    exact announced_method backendUp
  rw [if_neg hready] at h
  by_cases hping : method msg = "ping"
  · rw [if_pos hping] at h
    exact hanswer (replyTo_resultReply _) (hlocal (Or.inr hping)) h
  rw [if_neg hping] at h
  by_cases hrequest : expectsReply msg = false
  · rw [if_pos hrequest] at h
    exact honeWay hrequest h
  rw [if_neg hrequest] at h
  have howed : isOwed msg = true := isOwed_of_expectsReply (Bool.not_eq_false _ ▸ hrequest)
  cases permit with
  | true =>
      obtain ⟨result, rfl, hforward⟩ := Trace.of_map h
      have hall := forwardWithRetries_forwarded hsame hforward
      exact served_of_forwarded harray hall
        (fun _ => requestReplies_settles hsame fallbackTools hall.settles)
        fun hsilent => absurd (howed.symm.trans hsilent) (by decide)
  | false => exact hanswer (replyTo_errorReply _ _) howed h

theorem batch_served {items lines : List Value} {fallbackTools : List Value}
    {backendUp permit queued : Bool}
    (h : Trace (lineProgram same fallbackTools backendUp permit queued (.array items)) t lines) :
    Served same (.array items) t lines := by
  obtain ⟨rfl, rfl⟩ := Trace.of_done h
  refine ⟨fun _ => .nil, Nat.zero_le 12, fun h => absurd h Bool.false_ne_true,
    fun h => absurd h Bool.false_ne_true, fun items' heq hne => ?_,
    fun howed => absurd howed.symm Bool.false_ne_true⟩
  cases heq
  refine ⟨items.filterMap batchElement, batchElement_replyTo items, ?_⟩
  rw [batchRejection, if_neg hne]
  dsimp only
  by_cases hnone : items.filterMap batchElement = []
  · rw [if_pos hnone, if_pos hnone]
    rfl
  · rw [if_neg hnone, if_neg hnone]
    rfl

/-- While no backend is up, nothing is written for such a request. -/
theorem ackRequest_unanswered (same : Value → Value → Bool) (fallbackTools : List Value)
    (hack : isAckRequest msg = true) :
    lineProgram same fallbackTools false true true msg = .done [] := by
  obtain ⟨hready, hrequest⟩ := Bool.and_eq_true_iff.mp hack
  have hready := of_decide_eq_true hready
  obtain ⟨hmethod, hid⟩ := Bool.and_eq_true_iff.mp hrequest
  have harray : ∀ items, msg ≠ .array items := by
    rintro items rfl
    exact absurd hmethod Bool.false_ne_true
  have hmethod' : ¬ (msg.get "method").isNone = true := by simp [← Option.not_isSome, hmethod]
  unfold lineProgram
  rw [handleLine.eq_2 _ _ _ harray, if_neg hmethod', if_neg (by simp [hrequest]),
    dif_neg (by simp [hready]), if_pos hready]
  rfl

/-- A request that acknowledges the bridge's own `initialize` gets no reply, and no other line goes
without what it is owed. -/
theorem line_served_iff (same : Value → Value → Bool) (hsame : ∀ v, same v v = true)
    (fallbackTools : List Value) (msg : Value) :
    (∀ backendUp permit queued t lines,
      Trace (lineProgram same fallbackTools backendUp permit queued msg) t lines →
        Served same msg t lines) ↔ isAckRequest msg = false := by
  constructor
  · intro hserved
    rw [← Bool.not_eq_true]
    intro hack
    obtain ⟨hready, hrequest⟩ := Bool.and_eq_true_iff.mp hack
    have hline := ackRequest_unanswered same fallbackTools hack
    have hreplied := (hserved false true true [] [] (hline ▸ Trace.done [])).replied hrequest
    exact absurd hreplied (by simp [responsesTo])
  · intro hack backendUp permit queued t lines h
    by_cases harray : ∃ items, msg = .array items
    · obtain ⟨items, rfl⟩ := harray
      exact batch_served h
    · exact message_served hsame (fun items hitems => harray ⟨items, hitems⟩) hack h

end Responses

/-! ## Examples -/

/-- `Value::eq` on the ids in use, numbers and strings. -/
def sameScalar : Value → Value → Bool
  | .null, .null => true
  | .bool a, .bool b => a == b
  | .number a, .number b => a == b
  | .string a, .string b => a == b
  | .array _, .array _ => true
  | .object _, .object _ => true
  | _, _ => false

theorem sameScalar_refl (v : Value) : sameScalar v v = true := by
  cases v <;> simp [sameScalar]

def toolCall : Value :=
  .object [("jsonrpc", .string "2.0"), ("id", .number (.posInt 5)),
    ("method", .string "tools/call")]

def ackRequest : Value :=
  .object [("jsonrpc", .string "2.0"), ("id", .number (.posInt 5)),
    ("method", .string "notifications/initialized")]

theorem line_served_iff_toolCall : isAckRequest toolCall = false ∧
    ∀ backendUp permit queued t lines,
      Trace (lineProgram sameScalar [] backendUp permit queued toolCall) t lines →
        Served sameScalar toolCall t lines :=
  have hack : isAckRequest toolCall = false := by decide
  ⟨hack, (line_served_iff sameScalar sameScalar_refl [] toolCall).mpr hack⟩

theorem line_served_fails : ¬ ∀ msg backendUp permit queued t lines,
    Trace (lineProgram sameScalar [] backendUp permit queued msg) t lines →
      Served sameScalar msg t lines := by
  intro h
  have hack : isAckRequest ackRequest = true := by decide
  have hline := ackRequest_unanswered sameScalar [] hack
  have hreplied := (h ackRequest false true true [] [] (hline ▸ Trace.done [])).replied (by decide)
  exact absurd hreplied (by decide)

end Victauri.Cli.Bridge
