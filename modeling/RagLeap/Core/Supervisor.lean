import RagLeap.Core.UsageRoles

/-!
# Routing for a channel

`route_task` (`core/employees/supervisor.py`) asks the model for a role, falls back to keywords and
then to the channel's default, which `get_channel_role` reads from the database. Its statements are
those of a request (`Chat.Op`) and the three of the connection.

An untrusted task is answered by a role of `INTENT_SAFE_ROLES` or by the role that the channel's row
held in the run (`routeTask_confined`); nothing that the task, the rows of roles, the model or a
failure can do leads anywhere else.
-/

namespace RagLeap.Supervisor

open Budget (Config)
open Chat

/-! ## Statements -/

inductive Op
  | request (o : Chat.Op)
  | getConnection
  /-- `SELECT role FROM channel_role_config WHERE channel = %s`. -/
  | selectRole (channel : Str)
  | close

/-- `false` and `none`: the statement raises. The row of a channel may be missing. -/
abbrev Op.Res : Op → Type
  | request o => o.Res
  | getConnection => Bool
  | selectRole _ => Option (Option Str)
  | close => Bool

abbrev Statements : Signature := ⟨Op, Op.Res⟩

abbrev Routing (α : Type) : Type := Proc Statements α

abbrev issue (o : Op) : Routing o.Res := Proc.call (S := Statements) o

/-- The statements of a request. -/
def ofRequest {α : Type} (p : Request α) : Routing α :=
  OptionT.mk (p.run.interp fun o => (.op (.request o) .ret : Prog Statements (Chat.Op.Res o)))

/-! ## The channel's role -/

/-- `get_channel_role`. The query's failure is caught; the connection's and that of `close` are
not. -/
def getChannelRole (channel : Str) : Routing Str := do
  if ← issue .getConnection then
    let row ← issue (.selectRole channel)
    if ← issue .close then pure (row.join.getD DEFAULT_ROLE) else Proc.throw
  else Proc.throw

/-! ## Routing -/

/-- The primary provider of the caller's service, or of a new one. -/
def primaryOf : Option Config → Request Config
  | some config => pure config
  | none => raising (exec .generationService)

/-- What the `try` of `route_task` picks; `service` is the caller's, if there is one. -/
def pickRole (env : ChatEnv) (service : Option Config) (task : Str) (allowed : List RoleInfo) :
    Request (Option Str) := do
  let config ← primaryOf service
  let reply ← callTwice config (.route task allowed) env.SUPERVISOR_MAX_TOKENS
  pure (parseRole env reply (allowed.map RoleInfo.role))

/-- The role the model picks; an empty name is taken for none. -/
def askModel (env : ChatEnv) (service : Option Config) (task : Str) (allowed : List RoleInfo) :
    Routing (Option Str) :=
  if allowed ≠ [] ∧ Str.strip task ≠ [] then do
    let picked ← ofRequest (Proc.attempt (pickRole env service task allowed))
    pure (picked.join.filter (· ≠ []))
  else pure none

/-- The rest of `route_task`: by keyword, or else the channel's default. -/
def fallback (env : ChatEnv) (channel : Option Str) (task : Str) (names : List Str) :
    Routing Routed :=
  match (detectIntentRole env task).filter fun role => names = [] ∨ role ∈ names with
  | some role => pure ⟨role, .keyword⟩
  | none =>
    match channel.filter (· ≠ []) with
    | none => pure ⟨DEFAULT_ROLE, .default⟩
    | some channel => do
      let role ← Proc.attempt (getChannelRole channel)
      pure ⟨role.getD DEFAULT_ROLE, .default⟩

/-- `route_task`. -/
def routeTask (env : ChatEnv) (service : Option Config) (trusted : Bool) (channel : Option Str)
    (task : Str) : Routing Routed := do
  let allowed ← ofRequest (allowedRoles trusted)
  match ← askModel env service task allowed with
  | some role => pure ⟨role, .llm⟩
  | none => fallback env channel task (allowed.map RoleInfo.role)

/-! ## What each part returns -/

section

variable {env : ChatEnv}

theorem default_safe : DEFAULT_ROLE ∈ INTENT_SAFE_ROLES := by decide

theorem detectIntentRole_safe {task role : Str} (h : detectIntentRole env task = some role) :
    role ∈ INTENT_SAFE_ROLES := by
  have hall : ∀ e ∈ INTENT_KEYWORDS, e.1 ∈ INTENT_SAFE_ROLES := by decide
  obtain ⟨e, he, rfl⟩ := Option.map_eq_some_iff.1 h
  exact hall e (List.mem_of_find?_eq_some he)

/-- The role that is parsed is one of the names. -/
theorem mem_of_parseRole {reply role : Str} {names : List Str}
    (h : parseRole env reply names = some role) : role ∈ names := by
  obtain ⟨⟨role', i⟩, hbest, rfl⟩ := Option.map_eq_some_iff.1 h
  have hmem : ∀ e ∈ some (role', i), e.1 ∈ names := by
    rw [← hbest]
    refine List.foldlRecOn (motive := fun best : Option (Str × ℕ) => ∀ e ∈ best, e.1 ∈ names)
      names _ (fun _ => nofun) fun best hmem name hname e he => ?_
    split at he
    · exact hmem e he
    · obtain rfl := Option.some.inj he
      exact hname
    · split_ifs at he
      · obtain rfl := Option.some.inj he
        exact hname
      · exact hmem e he
  exact hmem _ rfl

/-- Any statements, with a result that meets `Q`. -/
abbrev Returns {S : Signature} {α : Type} (Q : Option α → Prop) (p : Proc S α) : Prop :=
  p.run.Follows (Protocol.only fun _ => True) (fun _ => Q) ()

theorem allowedRoles_returns :
    Returns (fun rows => ∃ allowed, rows = some allowed ∧
      ∀ name ∈ allowed.map RoleInfo.role, name ∈ INTENT_SAFE_ROLES) (allowedRoles false) := by
  refine ⟨trivial, fun rows _ _ => ⟨_, rfl, fun name hname => ?_⟩⟩
  obtain ⟨row, hrow, rfl⟩ := List.mem_map.1 hname
  exact of_decide_eq_true (List.mem_filter.1 hrow).2

theorem pickRole_returns (service : Option Config) (task : Str) (allowed : List RoleInfo) :
    Returns (fun picked => ∃ result, picked = some result ∧
      ∀ role ∈ result.join, role ∈ allowed.map RoleInfo.role)
      (Proc.attempt (pickRole env service task allowed)) := by
  have hbody : Returns (fun picked => ∀ role ∈ picked.join, role ∈ allowed.map RoleInfo.role)
      (pickRole env service task allowed) := by
    unfold Returns pickRole
    have hany : ∀ {α : Type} {p : Request α}, p.run.Only (fun _ => True) →
        Returns (fun _ => True) p := fun hp => hp
    refine Proc.follows_bind (Q := fun _ _ => True) ?_ (fun _ config _ => ?_) ?_
    · cases service with
      | some config => trivial
      | none => exact hany (raising_only (exec_only trivial))
    · refine Proc.follows_bind (Q := fun _ _ => True) (hany (callTwice_only (fun _ => trivial) _))
        (fun _ reply _ => ?_) ?_
      · exact fun role hrole => mem_of_parseRole hrole
      · exact fun _ _ role hrole => nomatch hrole
    · exact fun _ _ role hrole => nomatch hrole
  rw [Returns, Proc.run_attempt]
  exact hbody.bind fun _ result hresult => ⟨result, rfl, hresult⟩

/-! ## Runs -/

/-- The statements answered so far. -/
def history : Protocol Statements :=
  ⟨List (Prog.Event Statements), fun _ _ => True, fun es o r => some (es ++ [⟨o, r⟩])⟩

theorem after_history (past es : List (Prog.Event Statements)) :
    history.after past es = some (past ++ es) := by
  induction es generalizing past with
  | nil => exact congrArg some (List.append_nil past).symm
  | cons e es ih =>
    have hnext : history.next past e.1 e.2 = some (past ++ [e]) := rfl
    rw [Protocol.after_cons hnext, ih, List.append_assoc, List.singleton_append]

theorem ofRequest_follows {α : Type} {p : Request α} {Q : Option α → Prop} (h : Returns Q p)
    (past : List (Prog.Event Statements)) :
    (ofRequest p).run.Follows history (fun _ => Q) past := by
  have hrun : ∀ {q : Prog Requests (Option α)},
      q.Follows (Protocol.only fun _ => True) (fun _ => Q) () →
      ∀ past, Prog.Follows history (fun _ => Q) past
        (q.interp fun o => (.op (.request o) .ret : Prog Statements (Chat.Op.Res o))) := by
    intro q hq
    induction q with
    | ret a => exact fun _ => hq
    | op o k ih => exact fun _ => ⟨trivial, fun r es hes => ih r (hq.2 r () rfl) es⟩
  exact hrun h past

/-- The role is one that the channel's row held. -/
def ReadFor (channel : Option Str) (es : List (Prog.Event Statements)) (role : Str) : Prop :=
  ∃ c, channel = some c ∧ ⟨.selectRole c, some (some role)⟩ ∈ es

theorem getChannelRole_follows (channel : Str) (past : List (Prog.Event Statements)) :
    (getChannelRole channel).run.Follows history
      (fun es role => ∀ r ∈ role, r = DEFAULT_ROLE ∨ ReadFor (some channel) es r) past := by
  refine ⟨trivial, fun connected es₁ hes₁ => ?_⟩
  cases connected with
  | false =>
    intro r hr
    cases hr
  | true =>
    refine ⟨trivial, fun row es₂ hes₂ => ⟨trivial, fun closed es₃ hes₃ => ?_⟩⟩
    cases closed with
    | false =>
      intro r hr
      cases hr
    | true =>
      obtain rfl := Option.some.inj hes₃
      obtain rfl := Option.some.inj hes₂
      intro r hr
      obtain rfl := Option.some.inj hr
      rcases hrow : row.join with _ | found
      · exact .inl rfl
      · refine .inr ⟨channel, rfl, ?_⟩
        obtain rfl := Option.join_eq_some_iff.1 hrow
        exact List.mem_append_left _ (List.mem_append_right _ (List.mem_singleton.2 rfl))

theorem askModel_follows (service : Option Config) (task : Str) (allowed : List RoleInfo)
    (past : List (Prog.Event Statements)) :
    (askModel env service task allowed).run.Follows history
      (fun _ picked => ∃ result, picked = some result ∧
        ∀ role ∈ result, role ∈ allowed.map RoleInfo.role) past := by
  rw [askModel]
  split_ifs
  · refine Proc.follows_bind (ofRequest_follows (pickRole_returns service task allowed) past) ?_ ?_
    · rintro es picked ⟨result, hresult, hmem⟩
      obtain rfl := Option.some.inj hresult
      exact ⟨_, rfl, fun role hrole => hmem role (Option.filter_eq_some_iff.1 hrole).1⟩
    · rintro es ⟨_, hnone, -⟩
      exact nomatch hnone
  · exact ⟨none, rfl, nofun⟩

theorem fallback_follows (channel : Option Str) (task : Str) (names : List Str)
    (past : List (Prog.Event Statements)) :
    (fallback env channel task names).run.Follows history
      (fun es routed => ∃ r, routed = some r ∧
        (r.role ∈ INTENT_SAFE_ROLES ∨ ReadFor channel es r.role)) past := by
  rw [fallback]
  split
  · rename_i role hrole
    exact ⟨_, rfl, .inl (detectIntentRole_safe (Option.filter_eq_some_iff.1 hrole).1)⟩
  · split
    · exact ⟨_, rfl, .inl default_safe⟩
    · rename_i c hc
      obtain ⟨rfl, -⟩ := Option.filter_eq_some_iff.1 hc
      refine Proc.follows_bind (Q := fun es role => ∃ found, role = some found ∧
        ∀ r ∈ found, r = DEFAULT_ROLE ∨ ReadFor (some c) es r) ?_ ?_ ?_
      · rw [Proc.run_attempt]
        exact (getChannelRole_follows c past).bind fun _ found hfound => ⟨found, rfl, hfound⟩
      · rintro es role ⟨found, hfound, hread⟩
        obtain rfl := Option.some.inj hfound
        refine ⟨_, rfl, ?_⟩
        cases role with
        | none => exact .inl default_safe
        | some r =>
          rcases hread r rfl with rfl | hread
          · exact .inl default_safe
          · exact .inr hread
      · rintro es ⟨_, hnone, -⟩
        exact nomatch hnone

theorem routeTask_follows (service : Option Config) (channel : Option Str) (task : Str)
    (past : List (Prog.Event Statements)) :
    (routeTask env service false channel task).run.Follows history
      (fun es routed => ∃ r, routed = some r ∧
        (r.role ∈ INTENT_SAFE_ROLES ∨ ReadFor channel es r.role)) past := by
  refine Proc.follows_bind (ofRequest_follows allowedRoles_returns past) ?_ ?_
  · rintro es allowed ⟨_, hallowed, hsafe⟩
    obtain rfl := Option.some.inj hallowed
    refine Proc.follows_bind (askModel_follows service task allowed es) ?_ ?_
    · rintro es' picked ⟨_, hpicked, hmem⟩
      obtain rfl := Option.some.inj hpicked
      cases picked with
      | some role => exact ⟨_, rfl, .inl (hsafe role (hmem role rfl))⟩
      | none => exact fallback_follows channel task _ es'
    · rintro es' ⟨_, hnone, -⟩
      exact nomatch hnone
  · rintro es ⟨_, hnone, -⟩
    exact nomatch hnone

/-- **An untrusted task stays inside the safe roles.** Every run of `route_task` for an untrusted
caller that comes to its end returns a role, which is a safe one or the one that the row of the
channel held in the run. -/
theorem routeTask_confined (env : ChatEnv) (service : Option Config) (channel : Option Str)
    (task : Str) {es : List (Prog.Event Statements)} {routed : Option Routed}
    (ht : Prog.Trace (routeTask env service false channel task).run es (.ret routed)) :
    ∃ r, routed = some r ∧
      (r.role ∈ INTENT_SAFE_ROLES ∨
        ∃ c, channel = some c ∧ ⟨.selectRole c, some (some r.role)⟩ ∈ es) := by
  have hafter : history.after [] es = some es := after_history [] es
  exact ((routeTask_follows service channel task []).of_trace ht hafter).1

namespace Sample

def telegram : Str := "telegram".toList

def manager : Str := "manager".toList

/-- The roles cannot be listed, and the owner has given the channel to the manager. -/
def outage : List (Prog.Event Statements) :=
  [⟨.request .listRoles, none⟩, ⟨.getConnection, true⟩, ⟨.selectRole telegram, some (some manager)⟩,
    ⟨.close, true⟩]

theorem routeTask_confined_outage : ∃ r, some (⟨manager, .default⟩ : Routed) = some r ∧
    (r.role ∈ INTENT_SAFE_ROLES ∨
      ∃ c, some telegram = some c ∧ ⟨.selectRole c, some (some r.role)⟩ ∈ outage) :=
  routeTask_confined pairEnv none (some telegram) ['h', 'i']
    (.step _ (.step _ (.step _ (.step _ (.refl _)))))

end Sample

end

end RagLeap.Supervisor
