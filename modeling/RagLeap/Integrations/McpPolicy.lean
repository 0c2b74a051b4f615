import RagLeap.Foundations.JsonRoundTrip
import RagLeap.Integrations.Mcp

/-!
# The owner's policy over the calls of a session

A session makes the tools, from specs of the owner or by discovery, and calls them as the model says.
`session_follows`: whatever the servers answer, a `tools/call` request is posted only for an allowed
tool, and, where the owner has supplied the approval hook and has not relaxed it, only after the hook
was asked in the same call about the arguments that the server will read and has returned `True`.
-/

namespace RagLeap.Integrations

open JsonText

variable {F : Type}

/-- What the hook was asked and has answered with `True`. -/
structure Approval (F : Type) where
  server : PyStr
  tool : PyStr
  arguments : Value F

/-- What has happened in a session: the hints that stand for tools of servers, and the approval given
in the call that is running. -/
structure Watch (F : Type) where
  seen : List (PyStr × PyStr × Hints)
  approved : Option (Approval F)

def methodOf (body : Value F) : Option PyStr := asStr? (field body (lit "method"))

def paramOf (body : Value F) (name : PyStr) : Option (Value F) :=
  (field body (lit "params")).bind fun params => field params name

/-- The result of a reply. -/
def resultOf (resp : Response F) : Option (Value F) := resp.rpc.bind fun rpc => field rpc (lit "result")

/-- The hints of the tools in a result of `tools/list`. -/
def hintsIn (server : PyStr) (result : Value F) : List (PyStr × PyStr × Hints) :=
  match field result (lit "tools") with
  | some (.arr listed) => listed.filterMap fun item =>
      (asStr? (field item (lit "name"))).map fun name =>
        (server, name, hintsFrom (field item (lit "annotations")))
  | _ => []

variable (lib : Lib F) (config : McpConfig)

/-- The server is one that the owner trusts, and hints that stand for the tool say that it only
reads. -/
def Relaxed (seen : List (PyStr × PyStr × Hints)) (server tool : PyStr) : Prop :=
  trusts config server = some true ∧
    ∃ hints, (server, tool, hints) ∈ seen ∧ readsOnly hints = true

/-- The owner has supplied the hook, and the tool is neither approved beforehand nor relaxed. -/
def NeedsApproval (seen : List (PyStr × PyStr × Hints)) (server tool : PyStr) : Prop :=
  (∃ p, config.policy = some p ∧ p.approve = true ∧ toolKey server tool ∉ p.preApproved) ∧
    ¬ Relaxed config seen server tool

/-- The call of a tool may be posted. -/
def Authorized (φ : Watch F) (server tool : PyStr) (arguments : Value F) : Prop :=
  toolKey server tool ∈ config.allowedTools ∧
    (NeedsApproval config φ.seen server tool →
      ∃ copy, φ.approved = some ⟨server, tool, copy⟩ ∧ reread lib arguments = some copy)

/-- What a `tools/call` request says, also to the server that reads it, and that it may be posted. -/
def CallAuthorized (φ : Watch F) (server : PyStr) (body : Value F) : Prop :=
  ∃ tool arguments, paramOf body (lit "name") = some (.str tool) ∧
    paramOf body (lit "arguments") = some arguments ∧
      ((reread lib body).bind fun v => paramOf v (lit "arguments")) = reread lib arguments ∧
        Authorized lib config φ server tool arguments

/-- Typestate of a session. -/
abbrev governed : Protocol (Mcp F) where
  Phase := Watch F
  permits
    | φ, .post server _ body =>
      methodOf body = some (lit "tools/call") → CallAuthorized lib config φ server body
    | _, _ => True
  next
    | φ, .post server _ body, .response resp =>
      some (if methodOf body = some (lit "tools/list") then
        { φ with seen := φ.seen ++ ((resultOf resp).map (hintsIn server)).getD [] } else φ)
    | φ, .approve server tool arguments, answer =>
      some { φ with approved :=
        match answer with
        | .isTrue => some ⟨server, tool, arguments⟩
        | _ => none }
    | φ, .call .., _ => some { φ with approved := none }
    | φ, _, _ => some φ

variable {lib config}

/-! ## Requests -/

@[simp] theorem methodOf_rpcBody (id : ℤ) (method : PyStr) (params : List (PyStr × Value F)) :
    methodOf (rpcBody id method params) = some method := rfl

/-- What a post adds to the params of a request. -/
def Extra (lib : Lib F) (extra : List (PyStr × Value F)) : Prop :=
  extra = [] ∨ extra = [(lit "_meta", clientMeta lib)]

/-- Phases that a request with a method and params stays in, and what holds of its result there. -/
structure Keeps (lib : Lib F) (config : McpConfig) (server method : PyStr)
    (params : List (PyStr × Value F)) (I : Watch F → Prop) (R : Watch F → Value F → Prop) :
    Prop where
  permits : ∀ φ, I φ → ∀ headers id extra, Extra lib extra → (governed lib config).permits φ
    (.post server headers (rpcBody id method (params ++ extra)))
  next : ∀ φ, I φ → ∀ headers id extra r φ', (governed lib config).next φ
      (.post server headers (rpcBody id method (params ++ extra))) r = some φ' →
    I φ' ∧ ∀ resp, r = .response resp → ∀ result, resultOf resp = some result → R φ' result

/-- A reply whose result, if it has one, meets `R`. -/
def Answered (I : Watch F → Prop) (R : Watch F → Value F → Prop) (φ : Watch F)
    (x : Except Raised (Response F)) : Prop :=
  I φ ∧ ∀ resp, x = .ok resp → ∀ result, resultOf resp = some result → R φ result

/-- A result that meets `R`, or an exception. -/
def Resulted (I : Watch F → Prop) (R : Watch F → Value F → Prop) (φ : Watch F)
    (x : Except Raised (Value F)) : Prop :=
  I φ ∧ ∀ result, x = .ok result → R φ result

theorem post_follows {server : PyStr} {body : Value F} {Q : Watch F → Except Raised (Response F) → Prop}
    {φ : Watch F} (headers : List (PyStr × PyStr))
    (hpermits : ∀ headers, (governed lib config).permits φ (.post server headers body))
    (hnext : ∀ headers r φ', (governed lib config).next φ (.post server headers body) r = some φ' →
      (∀ resp, r = .response resp → Q φ' (.ok resp)) ∧ ∀ e, Q φ' (.error e))
    (hraise : ∀ e, Q φ (.error e)) :
    (post config server headers body).run.Follows (governed lib config) Q φ := by
  unfold post
  split
  · exact hraise _
  · refine ⟨hpermits _, fun r φ' h => ?_⟩
    obtain ⟨hok, herror⟩ := hnext _ r φ' h
    cases r with
    | response resp => exact hok resp rfl
    | transport message => exact herror _
    | raised => exact herror _
    | aborted => exact herror _

theorem unwrap_follows {I : Watch F → Prop} {R : Watch F → Value F → Prop} {φ : Watch F}
    {resp : Response F} (h : Answered I R φ (.ok resp)) :
    (unwrap resp).run.Follows (governed lib config) (Resulted I R) φ := by
  unfold unwrap
  split
  · exact ⟨h.1, fun _ hx => nomatch hx⟩
  · rename_i rpc hrpc
    have hresult : ∀ members, field rpc (lit "result") = some (.obj members) →
        R φ (.obj members) := by
      intro members hm
      refine h.2 resp rfl _ ?_
      rw [resultOf, hrpc]
      exact hm
    split
    · split
      · rename_i members hm
        refine ⟨h.1, fun result hx => ?_⟩
        cases hx
        exact hresult members hm
      · exact ⟨h.1, fun _ hx => nomatch hx⟩
    · split
      · rename_i members hm
        refine ⟨h.1, fun result hx => ?_⟩
        cases hx
        exact hresult members hm
      · exact ⟨h.1, fun _ hx => nomatch hx⟩
    · split
      · exact ⟨h.1, fun _ hx => nomatch hx⟩
      · exact ⟨h.1, fun _ hx => nomatch hx⟩

section Request

variable {server method : PyStr} {params : List (PyStr × Value F)} {I : Watch F → Prop}
  {R : Watch F → Value F → Prop} {φ : Watch F}

/-- The request itself. -/
theorem Keeps.post_follows (h : Keeps lib config server method params I R) (hI : I φ)
    (headers : List (PyStr × PyStr)) (id : ℤ) {extra : List (PyStr × Value F)}
    (hextra : Extra lib extra) :
    (post config server headers (rpcBody id method (params ++ extra))).run.Follows
      (governed lib config) (Answered I R) φ := by
  apply Integrations.post_follows headers
  · exact fun headers => h.permits φ hI headers id extra hextra
  · intro headers r φ' hφ'
    obtain ⟨hI', hR⟩ := h.next φ hI headers id extra r φ' hφ'
    refine ⟨fun resp hr => ⟨hI', fun resp' hresp => ?_⟩, fun e => ⟨hI', fun _ he => nomatch he⟩⟩
    cases hresp
    exact hR resp hr
  · exact fun e => ⟨hI, fun _ he => nomatch he⟩

/-- A request that is no call and no list of tools leaves the phase as it is. -/
theorem quiet_follows {body : Value F} (headers : List (PyStr × PyStr))
    (hcall : methodOf body ≠ some (lit "tools/call"))
    (hlist : methodOf body ≠ some (lit "tools/list")) :
    (post config server headers body).run.Follows (governed lib config) (fun φ' _ => φ' = φ) φ := by
  apply Integrations.post_follows headers
  · exact fun headers hmethod => absurd hmethod hcall
  · intro headers r φ' hφ'
    have hφ : φ' = φ := by
      cases r with
      | response resp =>
        have hphase := Option.some.inj hφ'
        rw [if_neg hlist] at hphase
        exact hphase.symm
      | _ => exact (Option.some.inj hφ').symm
    exact ⟨fun _ _ => hφ, fun _ => hφ⟩
  · exact fun _ => rfl

theorem modern_follows (h : Keeps lib config server method params I R) (hI : I φ)
    (name : Option PyStr) (paramHeaders : List (PyStr × PyStr)) :
    (modern lib config server method params name paramHeaders).run.Follows (governed lib config)
      (Resulted I R) φ := by
  have hraise : ∀ {φ e}, I φ → Resulted I R φ (.error e) := fun hI => ⟨hI, fun _ he => nomatch he⟩
  unfold modern
  refine Task.follows_bind (Q := fun φ' _ => φ' = φ) ?_ ?_ ?_
  · exact Task.follows_ask trivial fun r φ' hφ' => (Option.some.inj hφ').symm
  · rintro φ' id rfl
    split
    · exact hraise hI
    · refine Task.follows_bind (h.post_follows hI _ id (.inr rfl)) ?_ ?_
      · intro φ₁ resp hresp
        unfold modernReply
        split
        · exact unwrap_follows hresp
        · split
          · split
            · exact hraise hresp.1
            · dsimp only
              split
              · exact hraise hresp.1
              · split
                · split
                  · exact hraise hresp.1
                  · exact hraise hresp.1
                · exact hraise hresp.1
          · exact hraise hresp.1
      · exact fun φ₁ e he => hraise he.1
  · rintro φ' e rfl
    exact hraise hI

theorem initialized_follows (resp : Response F) :
    (initialized resp).run.Follows (governed lib config) (fun φ' _ => φ' = φ) φ := by
  unfold initialized
  split
  · split
    · rfl
    · rfl
  · refine Task.follows_bind (Q := fun φ' _ => φ' = φ) ?_ ?_ ?_
    · refine (unwrap_follows (I := fun φ' => φ' = φ) (R := fun _ _ => True) ⟨rfl, ?_⟩).mono ?_
      · exact fun _ _ _ _ => trivial
      · exact fun _ _ hx => hx.1
    · rintro φ' result rfl
      split
      · split
        · rfl
        · rfl
      · rfl
    · exact fun _ _ he => he

theorem legacy_follows (h : Keeps lib config server method params I R) (hI : I φ) :
    (legacy lib config server method params).run.Follows (governed lib config) (Resulted I R) φ := by
  have hraise : ∀ {φ e}, I φ → Resulted I R φ (.error e) := fun hI => ⟨hI, fun _ he => nomatch he⟩
  have hask : (ask .nextId : Client F ℤ).run.Follows (governed lib config) (fun φ' _ => φ' = φ) φ :=
    Task.follows_ask trivial fun r φ' hφ' => (Option.some.inj hφ').symm
  unfold legacy
  refine Task.follows_bind hask ?_ fun φ' e he => he ▸ hraise hI
  rintro φ' initId rfl
  refine Task.follows_bind (quiet_follows (φ := φ') _ ?_ ?_) ?_ fun φ₁ e he => he ▸ hraise hI
  · rw [methodOf_rpcBody]
    decide
  · rw [methodOf_rpcBody]
    decide
  rintro φ₁ resp rfl
  refine Task.follows_bind (initialized_follows (φ := φ₁) resp) ?_ fun φ₂ e he => he ▸ hraise hI
  rintro φ₂ headers rfl
  have hnote : methodOf (.obj [(lit "jsonrpc", .str (lit "2.0")),
      (lit "method", .str (lit "notifications/initialized"))] : Value F) =
        some (lit "notifications/initialized") := rfl
  refine Task.follows_bind (quiet_follows (φ := φ₂) headers ?_ ?_) ?_ fun φ₃ e he => he ▸ hraise hI
  · rw [hnote]
    decide
  · rw [hnote]
    decide
  rintro φ₃ note rfl
  split
  · exact hraise hI
  · refine Task.follows_bind hask ?_ fun φ' e he => he ▸ hraise hI
    rintro φ₄ id rfl
    have hpost := h.post_follows hI headers id (.inl rfl)
    rw [List.append_nil] at hpost
    refine Task.follows_bind hpost ?_ fun φ₅ e he => hraise he.1
    intro φ₅ resp hresp
    split
    · exact hraise hresp.1
    · exact unwrap_follows hresp

theorem requestLegacy_follows (h : Keeps lib config server method params I R) (hI : I φ)
    (first : Option ℤ) :
    (requestLegacy lib config server method params first).run.Follows (governed lib config)
      (Resulted I R) φ := by
  have hraise : ∀ {φ e}, I φ → Resulted I R φ (.error e) := fun hI => ⟨hI, fun _ he => nomatch he⟩
  unfold requestLegacy
  refine Task.follows_bind (Q := Resulted I R) ?_ ?_ fun φ' e he => hraise he.1
  · refine Task.follows_tryCatch (legacy_follows h hI) (fun φ' result hr => hr) ?_
    intro φ' e he
    split
    · split
      · exact hraise he.1
      · exact hraise he.1
    · exact hraise he.1
  · intro φ' result hr
    refine Task.follows_bind (Q := fun φ'' _ => φ'' = φ') ?_ ?_ fun φ'' e he => he ▸ hraise hr.1
    · exact Task.follows_ask trivial fun r φ'' hφ'' => (Option.some.inj hφ'').symm
    · rintro φ'' - rfl
      exact hr

/-- A request, to a server of either protocol, keeps what each of its posts keeps. -/
theorem request_follows (h : Keeps lib config server method params I R) (hI : I φ)
    (name : Option PyStr) (paramHeaders : List (PyStr × PyStr)) :
    (request lib config server method params name paramHeaders).run.Follows (governed lib config)
      (Resulted I R) φ := by
  have hraise : ∀ {φ e}, I φ → Resulted I R φ (.error e) := fun hI => ⟨hI, fun _ he => nomatch he⟩
  unfold request
  refine Task.follows_bind (Q := fun φ' _ => φ' = φ) ?_ ?_ fun φ' e he => he ▸ hraise hI
  · exact Task.follows_ask trivial fun r φ' hφ' => (Option.some.inj hφ').symm
  · rintro φ' era rfl
    split
    · exact requestLegacy_follows h hI none
    · refine Task.follows_tryCatch (Q := Resulted I R) ?_ (fun φ₁ result hr => hr) ?_
      · refine Task.follows_bind (modern_follows h hI name paramHeaders) ?_ fun φ₁ e he => hraise he.1
        intro φ₁ result hr
        refine Task.follows_bind (Q := fun φ₂ _ => φ₂ = φ₁) ?_ ?_ fun φ₂ e he => he ▸ hraise hr.1
        · exact Task.follows_ask trivial fun r φ₂ hφ₂ => (Option.some.inj hφ₂).symm
        · rintro φ₂ - rfl
          exact hr
      · intro φ₁ e he
        split
        · exact requestLegacy_follows h he.1 _
        · split
          · exact requestLegacy_follows h he.1 _
          · exact hraise he.1
        · exact hraise he.1

end Request

/-! ## Calls -/

/-- The hook was asked about what the server will read of the arguments. -/
theorem exists_reread (value : Value F) : reread lib value = some value.join.collapse :=
  parse_print lib.floats value

/-- Reading an object back, if its names are distinct and have no surrogate pairs. -/
theorem field_join_collapse {members : List (PyStr × Value F)}
    (hjoin : ∀ k ∈ members.map Prod.fst, PyStr.join k = k)
    (hnodup : (members.map Prod.fst).Nodup) (k : PyStr) :
    field (Value.obj members).join.collapse k =
      (members.lookup k).map fun v => v.join.collapse := by
  have hkeys : ((members.map fun m => (PyStr.join m.1, m.2.join)).map
      fun m => (m.1, m.2.collapse)) = members.map fun m => (m.1, m.2.join.collapse) := by
    rw [List.map_map]
    apply List.map_congr_left
    intro m hm
    exact Prod.ext (hjoin m.1 (List.mem_map_of_mem hm)) rfl
  have hobj : (Value.obj members).join.collapse =
      .obj (members.map fun m => (m.1, m.2.join.collapse)) := by
    unfold Value.join Value.collapse
    rw [Value.map_obj, Value.map_obj]
    change Value.obj (Value.dictOf ((members.map fun m => (PyStr.join m.1, m.2.join)).map
      fun m => (m.1, m.2.collapse))) = _
    rw [hkeys, Value.dictOf_eq_self]
    · rfl
    · rw [List.map_map]
      exact hnodup
  rw [hobj]
  clear hjoin hnodup hkeys hobj
  induction members with
  | nil => rfl
  | cons m members ih =>
    change List.lookup k ((m.1, m.2.join.collapse) :: _) = _
    rw [List.lookup_cons, List.lookup_cons]
    split
    · rfl
    · exact ih

/-- The server reads the arguments of a call as the client reads them back. -/
theorem reread_call (id : ℤ) (tool : PyStr) (arguments : Value F)
    {extra : List (PyStr × Value F)} (hextra : Extra lib extra) :
    ((reread lib (rpcBody id (lit "tools/call")
      ([(lit "name", .str tool), (lit "arguments", arguments)] ++ extra))).bind
        fun v => paramOf v (lit "arguments")) = reread lib arguments := by
  have hbody : ∀ k ∈ [lit "jsonrpc", lit "id", lit "method", lit "params"], PyStr.join k = k := by
    decide
  have hparams : ∀ k ∈ [lit "name", lit "arguments", lit "_meta"], PyStr.join k = k := by decide
  rw [exists_reread, exists_reread, Option.bind_some]
  have hfield : field (rpcBody id (lit "tools/call") ([(lit "name", .str tool),
      (lit "arguments", arguments)] ++ extra)).join.collapse (lit "params") =
        some (Value.obj ([(lit "name", .str tool), (lit "arguments", arguments)] ++
          extra)).join.collapse := by
    rw [rpcBody, field_join_collapse]
    · rfl
    · exact hbody
    · exact (by decide : [lit "jsonrpc", lit "id", lit "method", lit "params"].Nodup)
  rw [paramOf, hfield, Option.bind_some]
  rcases hextra with rfl | rfl
  · rw [List.append_nil, field_join_collapse]
    · rfl
    · exact fun k hk => hparams k (List.mem_append_left [lit "_meta"] hk)
    · exact (by decide : [lit "name", lit "arguments"].Nodup)
  · rw [List.cons_append, List.cons_append, List.nil_append, field_join_collapse]
    · rfl
    · exact hparams
    · exact (by decide : [lit "name", lit "arguments", lit "_meta"].Nodup)

theorem policy_any_iff : config.policy.any McpPolicy.approve = true ↔
    ∃ p, config.policy = some p ∧ p.approve = true := by
  cases config.policy with
  | none => simp
  | some p => simp

/-- After the check the call may go on: it needs no approval, or has been given it. -/
theorem checkApproval_follows {server tool : PyStr} {arguments : Value F} {requires : Option Bool}
    {φ : Watch F} (hallowed : toolKey server tool ∈ config.allowedTools)
    (hrequires : requires = some false → ¬ NeedsApproval config φ.seen server tool) :
    (checkApproval lib config server tool arguments requires).run.Follows (governed lib config)
      (fun φ' x => φ'.seen = φ.seen ∧
        (x = .ok () → Authorized lib config φ' server tool arguments)) φ := by
  unfold checkApproval
  split
  · rename_i hflag
    have hnone : requires = some false := by
      cases requires with
      | none => cases hflag
      | some b => exact congrArg some hflag
    exact ⟨rfl, fun _ => ⟨hallowed, fun hneeds => absurd hneeds (hrequires hnone)⟩⟩
  · split
    · rename_i hhook
      rw [exists_reread]
      refine Task.follows_bind (Q := fun (φ' : Watch F) x => φ'.seen = φ.seen ∧ (x = .ok .isTrue →
        φ'.approved = some ⟨server, tool, arguments.join.collapse⟩)) ?_ ?_ ?_
      · refine Task.follows_ask trivial fun r φ' hφ' => ?_
        cases hφ'
        refine ⟨rfl, fun hr => ?_⟩
        cases hr
        rfl
      · rintro φ' answer ⟨hseen, happroved⟩
        cases answer with
        | isTrue =>
          exact ⟨hseen, fun _ => ⟨hallowed, fun _ => ⟨_, happroved rfl, exists_reread _⟩⟩⟩
        | isNotTrue => exact ⟨hseen, fun h => nomatch h⟩
        | raised => exact ⟨hseen, fun h => nomatch h⟩
        | aborted => exact ⟨hseen, fun h => nomatch h⟩
      · exact fun φ' e he => ⟨he.1, fun h => nomatch h⟩
    · rename_i hhook
      refine ⟨rfl, fun _ => ⟨hallowed, fun hneeds => ?_⟩⟩
      obtain ⟨⟨p, hp, happrove, -⟩, -⟩ := hneeds
      exact absurd (policy_any_iff.2 ⟨p, hp, happrove⟩) hhook

/-- The posts of a `tools/call` request. -/
theorem keeps_call {server tool : PyStr} {arguments : Value F} {φ : Watch F}
    (h : Authorized lib config φ server tool arguments) :
    Keeps lib config server (lit "tools/call")
      [(lit "name", .str tool), (lit "arguments", arguments)] (fun φ' => φ' = φ)
      (fun _ _ => True) where
  permits φ' hφ' headers id extra hextra _ := by
    subst hφ'
    exact ⟨tool, arguments, rfl, rfl, reread_call id tool arguments hextra, h⟩
  next φ' hφ' headers id extra r φ'' hφ'' := by
    refine ⟨?_, fun _ _ _ _ => trivial⟩
    have hlist : methodOf (rpcBody id (lit "tools/call")
        ([(lit "name", .str tool), (lit "arguments", arguments)] ++ extra)) ≠
          some (lit "tools/list") := by
      rw [methodOf_rpcBody]
      decide
    cases r with
    | response resp =>
      have hphase := Option.some.inj hφ''
      rw [if_neg hlist] at hphase
      exact hphase.symm.trans hφ'
    | _ => exact (Option.some.inj hφ'').symm.trans hφ'

theorem callBody_follows {server tool : PyStr} {arguments parameters : Value F}
    {requires : Option Bool} {φ : Watch F}
    (hrequires : requires = some false → ¬ NeedsApproval config φ.seen server tool) :
    (callBody lib config server tool arguments parameters requires).run.Follows
      (governed lib config) (fun φ' _ => φ'.seen = φ.seen) φ := by
  unfold callBody
  split
  · rfl
  · rename_i hallowed
    rw [not_not] at hallowed
    split
    · rfl
    · refine Task.follows_bind (checkApproval_follows hallowed hrequires) ?_ fun φ' e he => he.1
      rintro φ' _ ⟨hseen, hauthorized⟩
      refine Task.follows_bind (request_follows (keeps_call (hauthorized rfl)) rfl _ _) ?_ ?_
      · rintro φ₁ result ⟨rfl, -⟩
        unfold toToolResult
        split
        · exact hseen
        · split
          · dsimp only
            split
            · exact hseen
            · exact hseen
          · exact hseen
      · rintro φ₁ e ⟨rfl, -⟩
        exact hseen

theorem callTool_follows {server tool : PyStr} {arguments parameters : Value F}
    {requires : Option Bool} {φ : Watch F}
    (hrequires : requires = some false → ¬ NeedsApproval config φ.seen server tool) :
    (callTool lib config server tool arguments parameters requires).run.Follows
      (governed lib config) (fun φ' _ => φ'.seen = φ.seen) φ := by
  unfold callTool
  refine Task.follows_tryCatch (callBody_follows hrequires) (fun φ' a h => h) ?_
  intro φ' e he
  split
  · exact he
  · exact he
  · exact he
  · exact he

/-! ## The session -/

/-- A tool that is flagged as needing no approval has been relaxed by the owner, or by hints that have
been seen. -/
def Flagged (config : McpConfig) (seen : List (PyStr × PyStr × Hints)) (tool : Tool F) : Prop :=
  tool.requires = false → ¬ NeedsApproval config seen tool.spec.server tool.spec.name

/-- The hints of a spec have been seen. -/
def SpecSeen (seen : List (PyStr × PyStr × Hints)) (spec : McpToolSpec F) : Prop :=
  (spec.server, spec.name, spec.annotations) ∈ seen

theorem flagged_of_toolsOf {seen : List (PyStr × PyStr × Hints)} {names : List PyStr}
    {specs : List (McpToolSpec F)} {tools : List (Tool F)}
    (h : toolsOf config names specs = some tools) (hseen : ∀ spec ∈ specs, SpecSeen seen spec) :
    ∀ tool ∈ tools, Flagged config seen tool := by
  induction specs generalizing names tools with
  | nil =>
    cases h
    exact fun _ ht => nomatch ht
  | cons spec specs ih =>
    unfold toolsOf at h
    dsimp only at h
    split at h
    · cases h
    · split at h
      · cases h
      · rename_i trust htrust
        obtain ⟨rest, hrest, rfl⟩ := Option.map_eq_some_iff.1 h
        rintro tool ht
        rcases List.mem_cons.1 ht with rfl | ht
        · intro hflag hneeds
          obtain ⟨⟨p, hp, -, hnot⟩, hrelaxed⟩ := hneeds
          simp only [requiresApproval] at hflag
          rw [if_neg (by simpa [hp] using hnot)] at hflag
          split at hflag
          · rename_i htrusted
            rw [Bool.and_eq_true] at htrusted
            exact hrelaxed ⟨htrust.trans (congrArg some htrusted.1), _,
              hseen spec List.mem_cons_self, htrusted.2⟩
          · cases hflag
        · exact ih hrest (fun s hs => hseen s (List.mem_cons_of_mem _ hs)) tool ht

theorem useTools_follows {tools : List (Tool F)} {calls : List (PyStr × List (PyStr × Value F))}
    {φ : Watch F} (h : ∀ tool ∈ tools, Flagged config φ.seen tool) :
    (useTools lib config tools calls).run.Follows (governed lib config) (fun _ _ => True) φ := by
  induction calls generalizing φ with
  | nil => trivial
  | cons call calls ih =>
    obtain ⟨name, arguments⟩ := call
    unfold useTools
    refine Task.follows_bind (Q := fun (φ' : Watch F) _ => φ'.seen = φ.seen) ?_ ?_ fun _ _ _ => trivial
    · refine Task.follows_ask trivial fun r φ' hφ' => ?_
      cases hφ'
      rfl
    · intro φ' _ hseen
      split
      · exact ih (hseen ▸ h)
      · rename_i tool hfind
        have hflagged : tool.requires = false →
            ¬ NeedsApproval config φ'.seen tool.spec.server tool.spec.name :=
          hseen ▸ h tool (List.mem_of_find?_eq_some hfind)
        refine Task.follows_bind (Q := fun (φ'' : Watch F) _ => φ''.seen = φ'.seen) ?_ ?_ fun _ _ _ => trivial
        · refine Task.follows_tryCatch (callTool_follows fun hreq =>
            hflagged (Option.some.inj hreq)) (fun _ _ hr => hr) ?_
          exact fun φ'' e he => he
        · intro φ'' _ hseen'
          exact ih ((hseen'.trans hseen) ▸ h)

/-! ## Discovery -/

variable (lib config) in
/-- A request for a list of tools keeps the hints seen, and the hints of its result are among them. -/
theorem keeps_list (server : PyStr) (params : List (PyStr × Value F))
    (seen : List (PyStr × PyStr × Hints)) :
    Keeps lib config server (lit "tools/list") params (fun φ => ∀ x ∈ seen, x ∈ φ.seen)
      (fun φ result => ∀ x ∈ hintsIn server result, x ∈ φ.seen) where
  permits φ hφ headers id extra hextra hmethod := by
    rw [methodOf_rpcBody] at hmethod
    exact absurd hmethod (by decide)
  next φ hφ headers id extra r φ' hφ' := by
    cases r with
    | response resp =>
      have hphase := Option.some.inj hφ'
      rw [if_pos (methodOf_rpcBody id (lit "tools/list") (params ++ extra))] at hphase
      subst hphase
      refine ⟨fun x hx => List.mem_append_left _ (hφ x hx), ?_⟩
      intro resp' hresp result hresult x hx
      cases hresp
      apply List.mem_append_right
      rw [hresult]
      exact hx
    | _ =>
      cases hφ'
      exact ⟨hφ, fun _ h => nomatch h⟩

/-- The hints of an item have been seen under its name. -/
def ItemSeen (seen : List (PyStr × PyStr × Hints)) (server : PyStr) (e : PyStr × Value F) : Prop :=
  (server, e.1, hintsFrom (field e.2 (lit "annotations"))) ∈ seen

theorem itemSeen_addFound {seen : List (PyStr × PyStr × Hints)} {server : PyStr} {tools : List PyStr}
    {found : List (PyStr × Value F)} {listed : List (Value F)}
    (hfound : ∀ e ∈ found, ItemSeen seen server e)
    (hlisted : ∀ item ∈ listed, ∀ name, asStr? (field item (lit "name")) = some name →
      ItemSeen seen server (name, item)) :
    ∀ e ∈ addFound tools found listed, ItemSeen seen server e := by
  unfold addFound
  induction listed generalizing found with
  | nil => exact hfound
  | cons item listed ih =>
    rw [List.foldl_cons]
    apply ih
    · split
      · rename_i name hname
        split
        · intro e he
          rcases List.mem_append.1 he with he | he
          · exact hfound e he
          · obtain rfl := List.mem_singleton.1 he
            exact hlisted item List.mem_cons_self name hname
        · exact hfound
      · exact hfound
    · exact fun item hitem => hlisted item (List.mem_cons_of_mem _ hitem)

theorem listPages_follows (server : PyStr) (tools : List PyStr) (pages : ℕ) (cursor : PyStr)
    (found : List (PyStr × Value F)) (seen : List (PyStr × PyStr × Hints)) {φ : Watch F}
    (hφ : ∀ x ∈ seen, x ∈ φ.seen) (hfound : ∀ e ∈ found, ItemSeen φ.seen server e) :
    (listPages lib config server tools pages cursor found).run.Follows (governed lib config)
      (fun φ' x => (∀ y ∈ seen, y ∈ φ'.seen) ∧
        ∀ found', x = .ok found' → ∀ e ∈ found', ItemSeen φ'.seen server e) φ := by
  induction pages generalizing cursor found φ with
  | zero =>
    refine ⟨hφ, fun found' hx => ?_⟩
    cases hx
    exact hfound
  | succ pages ih =>
    unfold listPages
    have hkeeps := keeps_list lib config server
      (if cursor = [] then [] else [(lit "cursor", .str cursor)]) φ.seen
    refine Task.follows_bind (request_follows hkeeps (fun x hx => hx) none []) ?_ ?_
    · rintro φ' result ⟨hgrown, hresult⟩
      have hφ' : ∀ x ∈ seen, x ∈ φ'.seen := fun x hx => hgrown x (hφ x hx)
      split
      · rename_i listed htools
        have hnew : ∀ e ∈ addFound tools found listed, ItemSeen φ'.seen server e := by
          apply itemSeen_addFound
          · exact fun e he => hgrown _ (hfound e he)
          · intro item hitem name hname
            apply hresult result rfl
            rw [hintsIn, htools]
            refine List.mem_filterMap.2 ⟨item, hitem, ?_⟩
            rw [hname]
            rfl
        dsimp only
        split
        · refine ⟨hφ', fun found' hx => ?_⟩
          cases hx
          exact hnew
        · split
          · refine ⟨hφ', fun found' hx => ?_⟩
            cases hx
            exact hnew
          · exact ih _ _ hφ' hnew
      · exact ⟨hφ', fun _ hx => nomatch hx⟩
    · rintro φ' e ⟨hgrown, -⟩
      exact ⟨fun x hx => hgrown x (hφ x hx), fun _ hx => nomatch hx⟩

theorem discoverServers_follows (servers : List (PyStr × List PyStr))
    (seen : List (PyStr × PyStr × Hints)) {φ : Watch F} (hφ : ∀ x ∈ seen, x ∈ φ.seen) :
    (discoverServers lib config servers).run.Follows (governed lib config)
      (fun φ' x => (∀ y ∈ seen, y ∈ φ'.seen) ∧
        ∀ specs, x = .ok specs → ∀ spec ∈ specs, SpecSeen φ'.seen spec) φ := by
  induction servers generalizing seen φ with
  | nil =>
    refine ⟨hφ, fun specs hx => ?_⟩
    cases hx
    exact fun _ h => nomatch h
  | cons s servers ih =>
    obtain ⟨server, tools⟩ := s
    unfold discoverServers
    refine Task.follows_bind (listPages_follows server tools MAX_LIST_PAGES [] [] φ.seen
      (fun _ hx => hx) (fun _ he => nomatch he)) ?_ ?_
    · rintro φ' found ⟨hgrown, hfound⟩
      refine Task.follows_bind (ih φ'.seen fun _ hx => hx) ?_ ?_
      · rintro φ'' others ⟨hgrown', hothers⟩
        refine ⟨fun y hy => hgrown' y (hgrown y (hφ y hy)), fun specs hx => ?_⟩
        cases hx
        intro spec hspec
        rcases List.mem_append.1 hspec with hspec | hspec
        · obtain ⟨tool, -, hsome⟩ := List.mem_filterMap.1 hspec
          obtain ⟨item, hitem, hof⟩ := Option.bind_eq_some_iff.1 hsome
          have hseen : ItemSeen φ'.seen server (tool, item) := by
            obtain ⟨l₁, l₂, hl, -⟩ := List.lookup_eq_some_iff.1 hitem
            apply hfound found rfl
            rw [hl]
            simp
          unfold specOf at hof
          dsimp only at hof
          split at hof
          · cases hof
            exact hgrown' _ hseen
          · cases hof
        · exact hothers others rfl spec hspec
      · rintro φ'' e ⟨hgrown', -⟩
        exact ⟨fun y hy => hgrown' y (hgrown y (hφ y hy)), fun _ hx => nomatch hx⟩
    · rintro φ' e ⟨hgrown, -⟩
      exact ⟨fun y hy => hgrown y (hφ y hy), fun _ hx => nomatch hx⟩

/-- The tools that are made are flagged by what has been seen. -/
theorem makeMcpTools_follows (specs : Option (List (McpToolSpec F))) {φ : Watch F}
    (hspecs : ∀ spec ∈ specs.getD [], SpecSeen φ.seen spec) :
    (makeMcpTools lib config specs).run.Follows (governed lib config)
      (fun φ' x => ∀ tools, x = .ok tools → ∀ tool ∈ tools, Flagged config φ'.seen tool) φ := by
  unfold makeMcpTools
  split
  · rename_i specs
    split
    · split
      · rename_i tools htools
        intro tools' hx
        cases hx
        exact flagged_of_toolsOf htools hspecs
      · exact fun _ hx => nomatch hx
    · exact fun _ hx => nomatch hx
  · refine Task.follows_bind (discoverServers_follows _ [] fun _ hx => nomatch hx) ?_ ?_
    · rintro φ' found ⟨-, hfound⟩
      split
      · rename_i tools htools
        intro tools' hx
        cases hx
        exact flagged_of_toolsOf htools (hfound found rfl)
      · exact fun _ hx => nomatch hx
    · exact fun _ _ _ _ hx => nomatch hx

/-- The start of a session: the hints in the owner's specs stand. -/
def watchStart (specs : Option (List (McpToolSpec F))) : Watch F :=
  ⟨(specs.getD []).map fun spec => (spec.server, spec.name, spec.annotations), none⟩

theorem session_follows (specs : Option (List (McpToolSpec F)))
    (calls : List (PyStr × List (PyStr × Value F))) :
    (session lib config specs calls).run.Follows (governed lib config) (fun _ _ => True)
      (watchStart specs) := by
  unfold session
  refine Task.follows_bind (makeMcpTools_follows specs ?_) ?_ fun _ _ _ => trivial
  · exact fun spec hspec => List.mem_map_of_mem hspec
  · intro φ tools htools
    exact useTools_follows (htools tools rfl)

/-! ## What a session posts -/

/-- The hints stand for the tool: in a spec of the owner, or in a list of tools that the server has
returned. -/
def Hinted (specs : Option (List (McpToolSpec F))) (es : List (Prog.Event (Mcp F)))
    (server tool : PyStr) (hints : Hints) : Prop :=
  (∃ spec ∈ specs.getD [], spec.server = server ∧ spec.name = tool ∧ spec.annotations = hints) ∨
    ∃ headers body resp result, ⟨.post server headers body, .response resp⟩ ∈ es ∧
      methodOf body = some (lit "tools/list") ∧ resultOf resp = some result ∧
        (server, tool, hints) ∈ hintsIn server result

variable (config) in
/-- A trusted server's read-only hint stands for the tool. -/
def RelaxedIn (specs : Option (List (McpToolSpec F))) (es : List (Prog.Event (Mcp F)))
    (server tool : PyStr) : Prop :=
  trusts config server = some true ∧
    ∃ hints, Hinted specs es server tool hints ∧ readsOnly hints = true

/-- No tool is called. -/
def NoCall (es : List (Prog.Event (Mcp F))) : Prop :=
  ∀ e ∈ es, ∀ tool arguments, e.1 ≠ .call tool arguments

variable (lib config) in
theorem exists_next (φ : Watch F) (e : Prog.Event (Mcp F)) :
    ∃ φ', (governed lib config).next φ e.1 e.2 = some φ' := by
  obtain ⟨o, r⟩ := e
  cases o with
  | post server headers body => cases r <;> exact ⟨_, rfl⟩
  | _ => exact ⟨_, rfl⟩

variable (lib config) in
theorem exists_after (φ : Watch F) (es : List (Prog.Event (Mcp F))) :
    ∃ φ', (governed lib config).after φ es = some φ' := by
  induction es generalizing φ with
  | nil => exact ⟨φ, rfl⟩
  | cons e es ih =>
    obtain ⟨φ₁, h₁⟩ := exists_next lib config φ e
    rw [Protocol.after_cons h₁]
    exact ih φ₁

/-- Where hints that have been seen come from. -/
theorem hinted_of_after {φ φ' : Watch F} {es : List (Prog.Event (Mcp F))}
    (h : (governed lib config).after φ es = some φ') {server tool : PyStr} {hints : Hints}
    (hmem : (server, tool, hints) ∈ φ'.seen) :
    (server, tool, hints) ∈ φ.seen ∨
      ∃ headers body resp result, ⟨.post server headers body, .response resp⟩ ∈ es ∧
        methodOf body = some (lit "tools/list") ∧ resultOf resp = some result ∧
          (server, tool, hints) ∈ hintsIn server result := by
  induction es generalizing φ with
  | nil =>
    cases h
    exact .inl hmem
  | cons e es ih =>
    obtain ⟨φ₁, h₁, h⟩ := Option.bind_eq_some_iff.1 h
    rcases ih h with hseen | ⟨headers, body, resp, result, he, hrest⟩
    · obtain ⟨o, r⟩ := e
      cases o with
      | post server' headers body =>
        cases r with
        | response resp =>
          have hphase := Option.some.inj h₁
          split at hphase
          · rename_i hmethod
            subst hphase
            rcases List.mem_append.1 hseen with hold | hnew
            · exact .inl hold
            · cases hresult : resultOf resp with
              | none =>
                rw [hresult] at hnew
                cases hnew
              | some result =>
                rw [hresult] at hnew
                have hserver : server = server' := by
                  have hnew' : (server, tool, hints) ∈ hintsIn server' result := hnew
                  unfold hintsIn at hnew'
                  split at hnew'
                  · obtain ⟨item, -, hitem⟩ := List.mem_filterMap.1 hnew'
                    obtain ⟨name, -, heq⟩ := Option.map_eq_some_iff.1 hitem
                    exact (congrArg Prod.fst heq).symm
                  · cases hnew'
                subst hserver
                exact .inr ⟨headers, body, resp, result, List.mem_cons_self, hmethod, hresult, hnew⟩
          · subst hphase
            exact .inl hseen
        | _ =>
          cases h₁
          exact .inl hseen
      | _ =>
        cases h₁
        exact .inl hseen
    · exact .inr ⟨headers, body, resp, result, List.mem_cons_of_mem _ he, hrest⟩

/-- Where an approval in the call that is running comes from. -/
theorem approve_of_after {φ φ' : Watch F} {es : List (Prog.Event (Mcp F))}
    (h : (governed lib config).after φ es = some φ') {a : Approval F}
    (ha : φ'.approved = some a) :
    φ.approved = some a ∧ NoCall es ∨ ∃ es₁ es₂,
      es = es₁ ++ ⟨.approve a.server a.tool a.arguments, .isTrue⟩ :: es₂ ∧ NoCall es₂ := by
  induction es generalizing φ with
  | nil =>
    cases h
    exact .inl ⟨ha, fun _ h => nomatch h⟩
  | cons e es ih =>
    obtain ⟨φ₁, h₁, h⟩ := Option.bind_eq_some_iff.1 h
    rcases ih h with ⟨happroved, hnone⟩ | ⟨es₁, es₂, rfl, hnone⟩
    · obtain ⟨o, r⟩ := e
      have hquiet : φ₁.approved = φ.approved → (∀ tool arguments, o ≠ .call tool arguments) →
          φ.approved = some a ∧ NoCall (⟨o, r⟩ :: es) := by
        intro hsame ho
        refine ⟨hsame.symm.trans happroved, fun e he => ?_⟩
        rcases List.mem_cons.1 he with rfl | he
        · exact ho
        · exact hnone e he
      cases o with
      | call tool arguments =>
        cases h₁
        cases happroved
      | approve server tool arguments =>
        cases h₁
        cases r with
        | isTrue =>
          cases happroved
          exact .inr ⟨[], es, rfl, hnone⟩
        | _ => cases happroved
      | post server headers body =>
        refine .inl (hquiet ?_ fun _ _ => nofun)
        cases r with
        | response resp =>
          have hphase := Option.some.inj h₁
          split at hphase <;> (subst hphase; rfl)
        | _ =>
          cases h₁
          rfl
      | nextId =>
        cases h₁
        exact .inl (hquiet rfl fun _ _ => nofun)
      | era server =>
        cases h₁
        exact .inl (hquiet rfl fun _ _ => nofun)
      | setEra server era =>
        cases h₁
        exact .inl (hquiet rfl fun _ _ => nofun)
    · exact .inr ⟨e :: es₁, es₂, rfl, hnone⟩

/-- **The owner's policy holds end to end.** In every session, whatever the servers and the hook
answer, a `tools/call` request is posted only for an allowed tool, and, if the owner has supplied the
hook and the tool is neither approved beforehand nor relaxed by a trusted server's read-only hint,
only after the hook was asked in the same call about the server, the tool and the arguments as the
server reads them, and has returned `True`. Whether a tool of a server without the owner's trust needs
approval does not depend on its hints. -/
theorem calls_follow_policy (lib : Lib F) (config : McpConfig)
    (specs : Option (List (McpToolSpec F))) (calls : List (PyStr × List (PyStr × Value F)))
    {es : List (Prog.Event (Mcp F))} {q : Prog (Mcp F) (Except Raised Unit)}
    (ht : Prog.Trace (session lib config specs calls).run es q) :
    (∀ es₁ server headers body r es₂, es = es₁ ++ ⟨.post server headers body, r⟩ :: es₂ →
      methodOf body = some (lit "tools/call") →
      ∃ tool arguments, paramOf body (lit "name") = some (.str tool) ∧
        paramOf body (lit "arguments") = some arguments ∧
        toolKey server tool ∈ config.allowedTools ∧
        ∀ p, config.policy = some p → p.approve = true → toolKey server tool ∉ p.preApproved →
          ¬ RelaxedIn config specs es₁ server tool →
          ∃ copy es₃ es₄, es₁ = es₃ ++ ⟨.approve server tool copy, .isTrue⟩ :: es₄ ∧ NoCall es₄ ∧
            reread lib arguments = some copy ∧
            ((reread lib body).bind fun v => paramOf v (lit "arguments")) = some copy ∧
            (arguments.Joined → arguments.Distinct → copy = arguments)) ∧
      ∀ server, trusts config server = some false → ∀ key (hints hints' : Hints),
        requiresApproval key hints false config.policy =
          requiresApproval key hints' false config.policy := by
  refine ⟨?_, fun _ _ _ _ _ => rfl⟩
  intro es₁ server headers body r es₂ hes hmethod
  obtain ⟨φ', hafter⟩ := exists_after lib config (watchStart specs) es
  obtain ⟨φ, hφ, hpermits⟩ := ((session_follows specs calls).of_trace ht hafter).2 es₁ _ r es₂ hes
  obtain ⟨tool, arguments, hname, hargs, hwire, hallowed, happroved⟩ := hpermits hmethod
  refine ⟨tool, arguments, hname, hargs, hallowed, fun p hp hhook hnot hrelaxed => ?_⟩
  have hneeds : NeedsApproval config φ.seen server tool := by
    refine ⟨⟨p, hp, hhook, hnot⟩, fun hrel => hrelaxed ?_⟩
    obtain ⟨htrust, hints, hmem, hreads⟩ := hrel
    refine ⟨htrust, hints, ?_, hreads⟩
    rcases hinted_of_after hφ hmem with hstart | hlisted
    · obtain ⟨spec, hspec, heq⟩ := List.mem_map.1 hstart
      simp only [Prod.mk.injEq] at heq
      exact .inl ⟨spec, hspec, heq⟩
    · exact .inr hlisted
  obtain ⟨copy, happ, hcopy⟩ := happroved hneeds
  rcases approve_of_after hφ happ with ⟨hstart, -⟩ | ⟨es₃, es₄, hsplit, hnone⟩
  · cases hstart
  · refine ⟨copy, es₃, es₄, hsplit, hnone, hcopy, hwire.trans hcopy, fun hjoined hdistinct => ?_⟩
    rw [exists_reread] at hcopy
    rw [Value.join_eq_self hjoined, Value.collapse_eq_self hdistinct] at hcopy
    exact (Option.some.inj hcopy).symm

/-- A client that sees no floats and sends no text beyond ASCII. -/
def plainLib : Lib Empty where
  floats := noFloats
  dumpsLength := fun _ => 0
  base64 := fun _ => none
  version := lit "1"

/-- One tool of a server that the owner does not trust, behind the hook. -/
def hooked : McpConfig where
  servers := [⟨lit "s", none, false⟩]
  allowedTools := [lit "s.t"]
  maxResultChars := 10
  maxDescriptionChars := 10
  maxSchemaChars := 10
  policy := some ⟨true, []⟩

def sender : McpToolSpec Empty :=
  ⟨lit "s", lit "t", [], .obj [(lit "type", .str (lit "object"))], [(lit "readOnlyHint", true)]⟩

/-- The hook agrees, and the server cannot be reached. -/
def agreed : (o : (Mcp Empty).Op) → (Mcp Empty).Res o
  | .nextId => (1 : ℤ)
  | .era _ => none
  | .setEra .. => ()
  | .post .. => .raised
  | .approve .. => .isTrue
  | .call .. => ()

theorem calls_follow_policy_hooked :
    ∃ (es : List (Prog.Event (Mcp Empty))) (headers : List (PyStr × PyStr)) (body copy : Value Empty),
      (∃ q, Prog.Trace (session plainLib hooked (some [sender]) [(lit "s__t", [])]).run es q) ∧
      ⟨.post (lit "s") headers body, .raised⟩ ∈ es ∧ methodOf body = some (lit "tools/call") ∧
      ⟨.approve (lit "s") (lit "t") copy, .isTrue⟩ ∈ es := by
  obtain ⟨q, ht⟩ := Prog.exists_trace_play
    (session plainLib hooked (some [sender]) [(lit "s__t", [])]).run (List.replicate 5 agreed)
  have hes : ∃ es₁ headers body,
      Prog.play (session plainLib hooked (some [sender]) [(lit "s__t", [])]).run
        (List.replicate 5 agreed) = es₁ ++ [⟨.post (lit "s") headers body, .raised⟩] ∧
      methodOf body = some (lit "tools/call") ∧ paramOf body (lit "name") = some (.str (lit "t")) ∧
      ∃ a b c d, es₁ = [a, b, c, d] :=
    ⟨[_, _, _, _], _, _, rfl, rfl, rfl, _, _, _, _, rfl⟩
  obtain ⟨es₁, headers, body, hplay, hmethod, hname, -⟩ := hes
  have huntrusted : ¬ RelaxedIn hooked (some [sender]) es₁ (lit "s") (lit "t") :=
    fun h => absurd h.1 (by decide)
  rw [hplay] at ht
  obtain ⟨tool, arguments, hname', -, -, happroved⟩ :=
    (calls_follow_policy plainLib hooked _ _ ht).1 es₁ _ headers body _ [] rfl hmethod
  obtain rfl : lit "t" = tool := by
    rw [hname] at hname'
    exact Value.str.inj (Option.some.inj hname')
  obtain ⟨copy, es₃, es₄, hsplit, -⟩ := happroved _ rfl rfl (by decide) huntrusted
  refine ⟨_, headers, body, copy, ⟨q, ht⟩, ?_, hmethod, ?_⟩
  · exact List.mem_append_right _ (List.mem_singleton_self _)
  · rw [hsplit, List.append_assoc]
    exact List.mem_append_right _ List.mem_cons_self

end RagLeap.Integrations
