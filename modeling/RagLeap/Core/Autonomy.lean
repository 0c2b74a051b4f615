import RagLeap.Core.Sensitivity

/-!
# The autonomy gate

`core/autonomy.py`: `executeOrRequest` runs an action, stores it for approval or skips it;
`processApprovalResponse` answers a stored one by chat and `resolvePending` from the inbox.

`executeOrRequest_not_direct` is what the forcing of sensitive roles guarantees: their actions are
not run directly as long as the role's row can be read, or the name alone is sensitive.
-/

namespace RagLeap.Core

/-! ## Settings and the log -/

/-- What `get_autonomy_settings` falls back to. -/
def Settings.fallback : Settings := ⟨.off, [], [], "telegram".toList, []⟩

def getAutonomySettings : Proc Statements Settings := do
  match ← exec .readSettings with
  | .ok settings => pure settings
  | .raised => pure .fallback
  | .unreachable => Proc.throw

/-- Of file results only the first line is logged. -/
def logAutonomousAction (e : LogEntry) : Proc Statements Unit := do
  let result :=
    if e.actionType ∈ ["list_files".toList, "read_file".toList] then Str.firstLine e.result
    else e.result
  match ← exec (.insertLog
    { e with content := e.content.take 2000, result := result.take 2000 }) with
  | .unreachable => Proc.throw
  | _ => pure ()

/-! ## Approval requests -/

def decisionInstructions (env : Env) (actionId : Str) : Str :=
  if env.unicode.lower (Str.strip env.APPROVAL_REPLIES) = "off".toList then
    "Replies here are not connected to the server. Approve or reject in the approval inbox:\n".toList
      ++ "POST /autonomy/pending/".toList ++ actionId ++ "/approve\n".toList
      ++ "POST /autonomy/pending/".toList ++ actionId ++ "/reject\n".toList
      ++ "(GET /autonomy/pending lists everything waiting)".toList
  else
    "Reply \"YES ".toList ++ actionId ++ "\" to approve\nReply \"NO ".toList ++ actionId
      ++ "\" to reject".toList

/-- The text the owner is sent. -/
def approvalText (env : Env) (a : Action) (actionId : Str) : Str :=
  let roleLine :=
    match a.role with
    | none | some [] => []
    | some role => "Role: ".toList ++ role ++ "\n".toList
  "Approval Request\n\nAction: ".toList ++ a.actionType ++ "\n".toList ++ roleLine
    ++ "Channel: ".toList ++ a.channel ++ "\nTarget: ".toList ++ a.target
    ++ "\n\nMessage preview:\n".toList ++ a.content.take 300 ++ "\n\n".toList
    ++ decisionInstructions env actionId

def requestApproval (env : Env) (a : Action) (actionId : Str) : Proc Statements Bool := do
  let settings ← getAutonomySettings
  if settings.approvalTarget = [] then pure false
  else
    let result ← exec (.send (.announce actionId) settings.approvalChannel settings.approvalTarget
      (approvalText env a actionId))
    pure (decide ("sent".toList <:+: result.render))

/-! ## The dispatcher -/

/-- The mode one call runs in: `full` is tightened to `semi` for a forced call, for access
requests and for sensitive roles. -/
def effectiveMode (env : Env) (r : Request) (mode : Mode) : Proc Statements Mode :=
  if mode = .full then
    if r.forceSemi ∨ r.actionType = "request_access".toList then pure .semi
    else
      match r.role with
      | none | some [] => pure .full
      | some role => do
        let sensitive ← isSensitiveRole env role
        pure (if sensitive then .semi else .full)
  else pure mode

/-- `execute_fn()` if one is given, else the sender of the channel. -/
def runAction (r : Request) : Proc Statements SendResult :=
  if r.executeFn then do
    match ← exec .executeFn with
    | some result => pure result
    | none => Proc.throw
  else exec (.send .direct r.channel r.target r.content)

/-- `full` mode: run the action and log it. -/
def executeDirectly (r : Request) : Proc Statements GateReply := do
  let ran ← Proc.attempt do
    let result ← runAction r
    logAutonomousAction ⟨r.actionType, r.channel, r.target, r.content, result.render, true, r.role⟩
    pure result
  match ran with
  | some result => pure (.executed result)
  | none => do
    logAutonomousAction
      ⟨r.actionType, r.channel, r.target, r.content, "ERROR: ".toList, true, r.role⟩
    pure (.error "action failed; see server logs".toList)

/-- `semi` mode: store the action and announce it, whether or not it could be stored. -/
def storeAndAnnounce (env : Env) (r : Request) : Proc Statements GateReply := do
  let actionId ← exec .uuid
  match ← exec (.insertPending actionId r.toAction) with
  | .unreachable => Proc.throw
  | _ => do
    let sent ← requestApproval env r.toAction actionId
    pure (.pendingApproval actionId sent)

def executeOrRequest (env : Env) (r : Request) : Proc Statements GateReply := do
  let settings ← getAutonomySettings
  if settings.mode = .off then pure (.skipped "autonomy off".toList)
  else if settings.actions ≠ [] ∧ r.actionType ∉ settings.actions then
    pure (.skipped (r.actionType ++ " not in allowed actions".toList))
  else if settings.channels ≠ [] ∧ r.channel ∉ settings.channels then
    pure (.skipped (r.channel ++ " not in allowed channels".toList))
  else do
    match ← effectiveMode env r settings.mode with
    | .full => executeDirectly r
    | .semi => storeAndAnnounce env r
    | _ => pure (.skipped "unknown mode".toList)

/-! ## Answers to approval requests -/

def IsIdChar (c : Char) : Bool := ('A' ≤ c && c ≤ 'Z') || ('0' ≤ c && c ≤ '9')

/-- The regular expression `^(YES|NO)\s+([A-Z0-9]{8})$`. -/
def parseApproval (msg : Str) : Option (Bool × Str) :=
  let answer (rest : Str) : Option Str :=
    let id := rest.dropWhile Str.isSpace
    if rest.takeWhile Str.isSpace ≠ [] ∧ id.length = 8 ∧ id.all IsIdChar then some id else none
  if "YES".toList <+: msg then (answer (msg.drop 3)).map (true, ·)
  else if "NO".toList <+: msg then (answer (msg.drop 2)).map (false, ·)
  else none

/-- What the owner is told about an answer. -/
inductive ApprovalReply
  | lookupError
  | notFound (actionId : Str)
  | rejected (actionId : Str)
  | executed (actionId result : Str)
  deriving DecidableEq

def ApprovalReply.text : ApprovalReply → Str
  | lookupError => "Error processing approval; see server logs.".toList
  | notFound actionId => "Action ".toList ++ actionId ++ " not found or already processed.".toList
  | rejected actionId => "Action ".toList ++ actionId ++ " rejected and cancelled.".toList
  | executed actionId result =>
    "Action ".toList ++ actionId ++ " approved and executed.\n".toList ++ result

/-- What follows the deletion of the pending row. -/
def carryOut (actionId : Str) (approved : Bool) (row : Action) :
    Proc Statements ApprovalReply :=
  if ¬ approved then do
    let result := "REJECTED by owner".toList
    logAutonomousAction
      ⟨row.actionType, row.channel, row.target, row.content, result, false, row.role⟩
    match ← exec (.learn row.actionType row.content result false) with
    | none => Proc.throw
    | some () => do
      exec (.notifyAgentLoop actionId false [] row.actionType)
      pure (.rejected actionId)
  else do
    let result ← exec (.send (.approved actionId) row.channel row.target row.content)
    logAutonomousAction
      ⟨row.actionType, row.channel, row.target, row.content, result.render, true, row.role⟩
    match ← exec (.learn row.actionType row.content result.render true) with
    | none => Proc.throw
    | some () => do
      exec (.notifyAgentLoop actionId true result.render row.actionType)
      pure (.executed actionId result.render)

/-- The answer to one pending action: read the row, delete it, carry it out. -/
def answerPending (actionId : Str) (approved : Bool) : Proc Statements ApprovalReply := do
  match ← exec (.selectPending actionId) with
  | .unreachable => Proc.throw
  | .raised => pure .lookupError
  | .ok none => pure (.notFound actionId)
  | .ok (some row) => do
    match ← exec (.deletePending actionId approved) with
    | .ok () => carryOut actionId approved row
    | _ => pure .lookupError

/-- The answer a message gives, and the id it gives it to. -/
def approvalOf (env : Env) (message : Str) : Option (Bool × Str) :=
  parseApproval (env.unicode.upper (Str.strip message))

/-- `none`: the message is no approval response. -/
def processApprovalResponse (env : Env) (message : Str) :
    Proc Statements (Option ApprovalReply) :=
  match approvalOf env message with
  | none => pure none
  | some (approved, actionId) => do
    let reply ← answerPending actionId approved
    pure (some reply)

def resolvePending (env : Env) (actionId : Str) (approve : Bool) :
    Proc Statements (Option ApprovalReply) := do
  let actionId := env.unicode.upper (Str.strip actionId)
  if actionId.length = 8 ∧ actionId.all IsIdChar then do
    match ← exec (.listPending 200) with
    | none => Proc.throw
    | some rows =>
      if ¬ rows.any (·.1 = actionId) then pure none
      else
        processApprovalResponse env
          ((if approve then "YES ".toList else "NO ".toList) ++ actionId)
  else pure none

/-! ## Sensitive roles are not run directly -/

/-- A role the sensitivity rule finds sensitive with the row stored for it. -/
def Sensitive (env : Env) (role : Str) (row : Option RoleRow) : Prop :=
  role ≠ [] ∧ sensitiveRole env (Str.strip role) row = true

instance (env : Env) (role : Str) (row : Option RoleRow) : Decidable (Sensitive env role row) :=
  inferInstanceAs (Decidable (_ ∧ _))

/-- A statement that runs an action directly. -/
def Stmt.IsDirect : Stmt → Prop
  | .send .direct .. => True
  | .executeFn => True
  | _ => False

instance : DecidablePred Stmt.IsDirect
  | .send .direct .. => .isTrue trivial
  | .executeFn => .isTrue trivial
  | .send (.announce _) .. | .send (.approved _) .. => .isFalse id
  | .readSettings | .readRole _ | .uuid | .insertPending .. | .listPending _
  | .selectPending _ | .deletePending .. | .insertLog _ | .learn .. | .notifyAgentLoop ..
  | .executeOrRequest _ | .insertRun _ | .updateRun .. | .selectRunByPending _
  | .checkBudget _ | .generationService | .callModel .. | .availableTools | .webhookTargets
  | .recipientAllowed _ | .allowedMcpTargets | .validateUrl _ | .grantNames => .isFalse id

/-- No direct run, where every read of the role's row is answered so that the rule finds the role
sensitive; a failed read leaves it the name. -/
def notDirect (env : Env) (role : Str) : Protocol Statements where
  Phase := Unit
  permits _ o := ¬ o.IsDirect
  next
    | _, .readRole _, ans =>
      if sensitiveRole env (Str.strip role) ans.toOption.join then some () else none
    | _, _, _ => some ()

section

variable {env : Env} {role : Str}

theorem getAutonomySettings_notDirect :
    getAutonomySettings.run.Follows (notDirect env role) (fun _ _ => True) () := by
  refine ⟨id, fun ans φ h => ?_⟩
  cases ans <;> trivial

theorem requestApproval_notDirect (a : Action) (actionId : Str) :
    (requestApproval env a actionId).run.Follows (notDirect env role) (fun _ _ => True) () := by
  refine Proc.follows_bind getAutonomySettings_notDirect (fun _ settings _ => ?_) fun _ _ => trivial
  split_ifs
  · trivial
  · exact ⟨id, fun _ _ _ => trivial⟩

theorem storeAndAnnounce_notDirect (r : Request) :
    (storeAndAnnounce env r).run.Follows (notDirect env role) (fun _ _ => True) () := by
  refine ⟨id, fun actionId φ h => ⟨id, fun ans φ h => ?_⟩⟩
  have hannounce : (requestApproval env r.toAction actionId >>= fun sent =>
      (pure (.pendingApproval actionId sent) : Proc Statements GateReply)).run.Follows
        (notDirect env role) (fun _ _ => True) () :=
    Proc.follows_bind (requestApproval_notDirect _ actionId) (fun _ _ _ => trivial)
      fun _ _ => trivial
  cases ans with
  | ok a => exact hannounce
  | raised => exact hannounce
  | unreachable => trivial

theorem isSensitiveRole_notDirect {row : Option RoleRow} (hs : Sensitive env role row) :
    (isSensitiveRole env role).run.Follows (notDirect env role) (fun _ b => b = some true) () := by
  unfold isSensitiveRole
  rw [if_neg hs.1]
  dsimp only
  split
  · rename_i b hb
    have hb : b = true := by simpa [sensitiveRole, hb] using hs.2
    exact congrArg some hb
  · refine ⟨id, fun ans φ h => ?_⟩
    have hans := (Option.ite_none_right_eq_some.1 h).1
    cases ans with
    | ok row => exact congrArg some hans
    | raised => exact congrArg some hans
    | unreachable => exact congrArg some hans

theorem effectiveMode_notDirect {r : Request} {mode : Mode} {row : Option RoleRow}
    (hr : r.role = some role) (hs : Sensitive env role row) :
    (effectiveMode env r mode).run.Follows (notDirect env role) (fun _ m => m ≠ some .full) () := by
  unfold effectiveMode
  split_ifs with hmode hforce
  · exact fun h => nomatch h
  · rw [hr]
    split
    · rename_i h
      cases h
    · rename_i h
      cases h
      exact absurd rfl hs.1
    · rename_i role' _ h
      cases h
      refine Proc.follows_bind (isSensitiveRole_notDirect hs) (fun φ b hb => ?_) fun φ h => ?_
      · cases hb
        exact fun h => nomatch h
      · exact fun h => nomatch h
  · exact fun h => hmode (Option.some.inj h)

theorem executeOrRequest_notDirect {r : Request} {row : Option RoleRow}
    (hr : r.role = some role) (hs : Sensitive env role row) :
    (executeOrRequest env r).run.Follows (notDirect env role) (fun _ _ => True) () := by
  refine Proc.follows_bind getAutonomySettings_notDirect (fun _ settings _ => ?_) fun _ _ => trivial
  split_ifs
  · trivial
  · trivial
  · trivial
  · refine Proc.follows_bind (effectiveMode_notDirect hr hs) (fun φ mode hmode => ?_)
      fun _ _ => trivial
    cases mode with
    | full => exact absurd rfl hmode
    | semi => exact storeAndAnnounce_notDirect r
    | off => trivial
    | other m => trivial

end

theorem after_notDirect {env : Env} {role : Str} {es : List (Prog.Event Statements)}
    (h : ∀ name (ans : Answer (Option RoleRow)), ⟨.readRole name, ans⟩ ∈ es →
      sensitiveRole env (Str.strip role) ans.toOption.join = true) :
    (notDirect env role).after () es = some () := by
  induction es with
  | nil => rfl
  | cons e es ih =>
    have htail := ih fun name ans hans => h name ans (List.mem_cons_of_mem _ hans)
    have hhead : (notDirect env role).next () e.1 e.2 = some () := by
      obtain ⟨o, ans⟩ := e
      cases o <;> try rfl
      exact if_pos (h _ ans List.mem_cons_self)
    exact (Protocol.after_cons hhead).trans htail

/-- **An action of a sensitive role is not run directly**, whatever the settings and the request
are, in a run in which the role's row is read without failure, and in every run if the rule finds
the name sensitive without its row. -/
theorem executeOrRequest_not_direct (env : Env) {r : Request} {role : Str}
    (hr : r.role = some role) {row : Option RoleRow} (hs : Sensitive env role row)
    {es : List (Prog.Event Statements)} {q : Prog Statements (Option GateReply)}
    (ht : Prog.Trace (executeOrRequest env r).run es q)
    (hread : Sensitive env role none ∨
      ∀ name ans, ⟨.readRole name, ans⟩ ∈ es → ans = .ok row) :
    ∀ e ∈ es, ¬ e.1.IsDirect := by
  have hafter : (notDirect env role).after () es = some () := by
    refine after_notDirect fun name ans hans => ?_
    rcases hread with hname | hread
    · exact sensitiveRole_of_name hname.2 _
    · rw [hread name ans hans]
      exact hs.2
  obtain ⟨-, hpermits⟩ := Prog.Follows.of_trace ht (executeOrRequest_notDirect hr hs) hafter
  intro e he
  obtain ⟨es₁, es₂, rfl⟩ := List.append_of_mem he
  obtain ⟨_, -, hdirect⟩ := hpermits es₁ e.1 e.2 es₂ rfl
  exact hdirect

/-- A message an employee with the role `advisor` wants to send. -/
def advisorMessage : Request :=
  ⟨⟨"send_slack".toList, "slack".toList, "slack".toList, "hello".toList, [],
    some "advisor".toList⟩, false, false⟩

/-- What the rule has to know to find the role `advisor` sensitive. -/
def advisorRow : Option RoleRow := some ⟨"Tax Advisor".toList, []⟩

/-- Mode `full`, and the answer to the read of the advisor's row. -/
def advisorWorld (ans : Answer (Option RoleRow)) : (o : Stmt) → o.Res
  | .readRole _ => ans
  | o => calmReply .full o

theorem sensitive_advisor : Sensitive Env.plain "advisor".toList advisorRow := by decide +kernel

/-- With the row read, the message of a tax advisor is stored for approval. -/
theorem executeOrRequest_not_direct_advisor :
    (Prog.play (executeOrRequest Env.plain advisorMessage).run
      (List.replicate 6 (advisorWorld (.ok advisorRow)))).all
        (fun e => decide ¬ e.1.IsDirect) = true := by
  obtain ⟨q, ht⟩ := Prog.exists_trace_play (executeOrRequest Env.plain advisorMessage).run
    (List.replicate 6 (advisorWorld (.ok advisorRow)))
  have hans : (Prog.play (executeOrRequest Env.plain advisorMessage).run
      (List.replicate 6 (advisorWorld (.ok advisorRow)))).all
        (fun | ⟨.readRole _, ans⟩ => decide (ans = .ok advisorRow) | _ => true) = true := by
    decide +kernel
  have hdirect := executeOrRequest_not_direct Env.plain (r := advisorMessage) rfl sensitive_advisor ht
    (.inr fun name ans h => of_decide_eq_true (List.all_eq_true.1 hans _ h))
  exact List.all_eq_true.2 fun e he => decide_eq_true (hdirect e he)

/-- When the row of the same role cannot be read, its message is sent. -/
theorem unread_role_runs_directly :
    Sensitive Env.plain "advisor".toList advisorRow ∧
      advisorMessage.role = some "advisor".toList ∧
      ∃ es q, Prog.Trace (executeOrRequest Env.plain advisorMessage).run es q ∧
        ∃ e ∈ es, e.1.IsDirect := by
  obtain ⟨q, ht⟩ := Prog.exists_trace_play (executeOrRequest Env.plain advisorMessage).run
    (List.replicate 6 (advisorWorld .raised))
  exact ⟨sensitive_advisor, rfl, _, q, ht, by decide +kernel⟩

end RagLeap.Core
