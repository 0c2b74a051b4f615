import RagLeap.Core.McpClient
import RagLeap.Core.PageFetch
import RagLeap.Foundations.Dict
import RagLeap.Foundations.Pool

/-!
# The statements of the core's autonomy and agent loop

`core/autonomy.py` and `core/agent_loop.py` talk to one database, to the owner's channels, to the
model and to the process settings. Each such step is a statement of `Core`; `store` says what the
statements on the tables `autonomy_pending` and `agent_runs` do, with a `Choice` settling whether
the database fails and what everything outside it answers.

Two fields are not read by the statement that carries them: the `Purpose` of a message says which
part of the program sends it, and the answer on `deletePending` which reply it is issued for. The
`journal` records them, so that statements about runs can speak of them.
-/

namespace RagLeap.Core

/-! ## Data -/

/-- The process environment, and the library functions the program relies on: the character
tables, `json.loads`, the hexadecimal SHA-256 digest and `str()` of a value that is no string. -/
structure Env where
  unicode : Unicode
  loads : Str → Option Json
  sha256 : Str → Str
  repr : Json → Str
  SENSITIVE_ROLES_EXTRA : Str
  SENSITIVE_ROLES_REVIEWED_SAFE : Str
  APPROVAL_REPLIES : Str
  AGENT_LOOP_ENABLED : Str
  /-- `none` where the variable is no integer. -/
  AGENT_LOOP_MAX_STEPS : Option ℤ

/-- An environment with nothing set. -/
def Env.plain : Env where
  unicode := .ascii
  loads _ := none
  sha256 s := s
  repr _ := []
  SENSITIVE_ROLES_EXTRA := []
  SENSITIVE_ROLES_REVIEWED_SAFE := []
  APPROVAL_REPLIES := []
  AGENT_LOOP_ENABLED := []
  AGENT_LOOP_MAX_STEPS := some 4

/-- `autonomy_settings.mode`; `other` is any text the program does not know. -/
inductive Mode
  | off | semi | full
  | other (mode : Str)
  deriving DecidableEq

structure Settings where
  mode : Mode
  channels : List Str
  actions : List Str
  approvalChannel : Str
  approvalTarget : Str
  deriving DecidableEq

/-- A row of `employee_roles`, as far as the sensitivity rule reads it. -/
structure RoleRow where
  displayName : Str
  skillTags : List Str
  deriving DecidableEq

/-- A row of `autonomy_pending` without its id. -/
structure Action where
  actionType : Str
  channel : Str
  target : Str
  content : Str
  subject : Str
  role : Option Str
  deriving DecidableEq

/-- A row of `autonomy_log`. -/
structure LogEntry where
  actionType : Str
  channel : Str
  target : Str
  content : Str
  result : Str
  approved : Bool
  role : Option Str

/-- The arguments of `execute_or_request`; `executeFn` says whether one is given. -/
structure Request extends Action where
  executeFn : Bool
  forceSemi : Bool

/-- What `_send_via_channel` returns: the result of a page fetch or of an MCP call, or the text
of any other sender. -/
inductive SendResult
  | page (r : PageFetch.Result)
  | mcp (r : McpClient.Result)
  | text (s : Str)
  deriving DecidableEq

def SendResult.render : SendResult → Str
  | page r => r.render
  | mcp r => r.render
  | text s => s

/-- What `execute_or_request` returns. -/
inductive GateReply
  | executed (result : SendResult)
  | pendingApproval (actionId : Str) (sent : Bool)
  | skipped (result : Str)
  | error (result : Str)
  deriving DecidableEq

inductive RunStatus
  | running | waitingApproval | done | failed | rejected | budget
  deriving DecidableEq

inductive StepStatus
  | executed | pendingApproval | skipped | error | rejected
  deriving DecidableEq

/-- A recorded step of a run; `sig` is the tool, the target and the digest of the content. -/
structure Step where
  tool : Str
  target : Str
  content : Str
  sig : Str × Str × Str
  status : StepStatus
  forcedApproval : Bool
  observation : Str
  deriving DecidableEq

/-- A row of `agent_runs`; `id` is `none` before the first save. -/
structure Run where
  id : Option Str
  role : Option Str
  query : Str
  contextAnswer : Str
  status : RunStatus
  steps : List Step
  tainted : Bool
  pendingActionId : Option Str
  summary : Str
  deriving DecidableEq

/-- Who sends a message: an action run directly, an approval request, an approved action. -/
inductive Purpose
  | direct
  | announce (actionId : Str)
  | approved (actionId : Str)
  deriving DecidableEq

/-! ## Statements -/

/-- The answer of a database statement; `unreachable` if there is no connection. -/
inductive Answer (α : Type)
  | ok (a : α)
  | raised
  | unreachable
  deriving DecidableEq

inductive Stmt
  /-- `get_autonomy_settings`' query. -/
  | readSettings
  | readRole (role : Str)
  | uuid
  | insertPending (actionId : Str) (action : Action)
  | listPending (limit : ℕ)
  | selectPending (actionId : Str)
  | deletePending (actionId : Str) (approved : Bool)
  | insertLog (entry : LogEntry)
  | learn (actionType content result : Str) (approved : Bool)
  | send (why : Purpose) (channel target content : Str)
  | executeFn
  | notifyAgentLoop (actionId : Str) (approved : Bool) (result actionType : Str)
  | executeOrRequest (r : Request)
  | insertRun (run : Run)
  | updateRun (id : Str) (run : Run)
  | selectRunByPending (actionId : Str)
  | checkBudget (role : Option Str)
  | generationService
  | callModel (prompt : Str) (maxTokens : ℕ)
  | availableTools
  | webhookTargets
  | recipientAllowed (target : Str)
  | allowedMcpTargets
  | validateUrl (target : Str)
  | grantNames

/-- `none` in an `Option` answer: the statement raises. -/
abbrev Stmt.Res : Stmt → Type
  | readSettings => Answer Settings
  | readRole _ => Answer (Option RoleRow)
  | uuid => Str
  | insertPending .. => Answer Unit
  | listPending _ => Option (List (Str × Action))
  | selectPending _ => Answer (Option Action)
  | deletePending .. => Answer Unit
  | insertLog _ => Answer Unit
  | learn .. => Option Unit
  | send .. => SendResult
  | executeFn => Option SendResult
  | notifyAgentLoop .. => Unit
  | executeOrRequest _ => Option GateReply
  | insertRun _ => Option Str
  | updateRun .. => Option Unit
  | selectRunByPending _ => Option (Option Run)
  | checkBudget _ => Option Bool
  | generationService => Option Unit
  | callModel .. => Option Str
  | availableTools => List (Str × Str)
  | webhookTargets => List Str
  | recipientAllowed _ => Bool
  | allowedMcpTargets => List Str
  | validateUrl _ => Bool
  | grantNames => List Str

abbrev Statements : Signature := ⟨Stmt, Stmt.Res⟩

/-- Issues a statement. -/
abbrev exec (o : Stmt) : Proc Statements o.Res := Proc.call (S := Statements) o

/-! ## What the statements do -/

/-- Whether a database statement goes through: it may find no connection, be refused, or take
effect while the client sees an exception. -/
inductive Fault
  | none | unreachable | refused | lostReply
  deriving DecidableEq

/-- A fault with which a write still takes effect. -/
def Fault.Commits (f : Fault) : Prop := f = .none ∨ f = .lostReply

instance (f : Fault) : Decidable f.Commits := inferInstanceAs (Decidable (_ ∨ _))

/-- What the program does not control about one statement. -/
structure Choice where
  fault : Fault
  /-- The id drawn: of a pending action, or of a new run. -/
  id : Str
  /-- The answer of a statement the tables do not decide. -/
  reply : (o : Stmt) → o.Res

/-- What a statement did that the tables do not show afterwards. -/
inductive Effect
  | sent (why : Purpose) (channel target content : Str)
  /-- A DELETE the answer was told went through, whether or not a row was left to delete. -/
  | deleted (actionId : Str) (approved : Bool)
  /-- A search for the run that waits for an action. -/
  | lookedUp (actionId : Str)
  deriving DecidableEq

/-- The tables, rows in the order of their creation, and the record of what was done. -/
structure Store where
  pending : Dict Str Action
  runs : Dict Str Run
  journal : List Effect

/-- `str(uuid.uuid4())[:8].upper()` can be this text. -/
def IsActionId (id : Str) : Prop := id.length = 8 ∧ ∀ c ∈ id, c ∈ "0123456789ABCDEF".toList

-- over the characters of `id`, not over all of `Char`
instance (id : Str) : Decidable (IsActionId id) :=
  haveI := List.decidableBAll (· ∈ "0123456789ABCDEF".toList) id
  inferInstanceAs (Decidable (_ ∧ _))

/-- A read under a fault. -/
def Fault.read {α : Type} (f : Fault) (a : α) : Answer α :=
  match f with
  | .none => .ok a
  | .unreachable => .unreachable
  | _ => .raised

/-- A write under a fault: the answer and the state after it. -/
def Fault.write {α : Type} (f : Fault) (a : α) (s s' : Store) : Answer α × Store :=
  match f with
  | .none => (.ok a, s')
  | .lostReply => (.raised, s')
  | .unreachable => (.unreachable, s)
  | .refused => (.raised, s)

theorem Fault.write_snd {α : Type} (f : Fault) (a : α) (s s' : Store) :
    (f.write a s s').2 = if f.Commits then s' else s := by
  cases f <;> rfl

/-- The answer of a statement of a helper that lets every exception out. -/
def Answer.toOption {α : Type} : Answer α → Option α
  | ok a => some a
  | _ => none

/-- The run `SELECT … WHERE pending_action_id = %s` fetches first. -/
def Store.findRun (s : Store) (actionId : Str) : Option Run :=
  (s.runs.items.find? fun e => e.2.pendingActionId = some actionId).map Prod.snd

theorem Store.findRun_eq_some {s : Store} {actionId : Str} {row : Run}
    (h : s.findRun actionId = some row) :
    ∃ id, s.runs.get? id = some row ∧ row.pendingActionId = some actionId := by
  obtain ⟨⟨id, row'⟩, hfind, rfl⟩ := Option.map_eq_some_iff.1 h
  exact ⟨id, Dict.get?_eq_some_iff.2 (List.mem_of_find?_eq_some hfind), by
    simpa using List.find?_some hfind⟩

/-- The columns an `UPDATE agent_runs` sets. -/
def Store.updateRun (s : Store) (id : Str) (run : Run) : Store :=
  { s with runs := match s.runs.get? id with
      | some row => s.runs.set id { row with
          status := run.status, steps := run.steps, tainted := run.tainted
          pendingActionId := run.pendingActionId, summary := run.summary }
      | none => s.runs }

def act : (o : Stmt) → Choice → Store → Option (o.Res × Store)
  | .uuid, w, s => if IsActionId w.id then some (w.id, s) else none
  | .insertPending id a, w, s =>
    match s.pending.get? id with
    | some _ => some (if w.fault = .unreachable then .unreachable else .raised, s)
    | none => some (w.fault.write () s { s with pending := s.pending.set id a })
  | .listPending limit, w, s =>
    some ((w.fault.read (s.pending.items.reverse.take (max 1 (min limit 200)))).toOption, s)
  | .selectPending id, w, s => some (w.fault.read (s.pending.get? id), s)
  | .deletePending id b, w, s =>
    some (w.fault.write () s { s with
      pending := s.pending.erase id
      journal := s.journal ++ if w.fault = .none then [.deleted id b] else [] })
  | .send why ch t c, w, s =>
    some (w.reply (.send why ch t c), { s with journal := s.journal ++ [.sent why ch t c] })
  | .insertRun run, w, s =>
    match s.runs.get? w.id with
    | some _ => none
    | none =>
      let written := w.fault.write w.id s { s with
        runs := s.runs.set w.id { run with id := some w.id } }
      some (written.1.toOption, written.2)
  | .updateRun id run, w, s =>
    let written := w.fault.write () s (s.updateRun id run)
    some (written.1.toOption, written.2)
  | .selectRunByPending id, w, s =>
    some ((w.fault.read (s.findRun id)).toOption, { s with journal := s.journal ++ [.lookedUp id] })
  | o, w, s => some (w.reply o, s)

def store : Machine Statements Store Choice := ⟨act⟩

/-- An outside world in which nothing fails, every message is sent and no tool is configured. -/
def calmReply (mode : Mode) : (o : Stmt) → o.Res
  | .readSettings => .ok ⟨mode, [], [], "telegram".toList, "1".toList⟩
  | .readRole _ => .ok none
  | .uuid => "0123ABCD".toList
  | .insertPending .. => .ok ()
  | .listPending _ => some []
  | .selectPending _ => .ok none
  | .deletePending .. => .ok ()
  | .insertLog _ => .ok ()
  | .learn .. => some ()
  | .send .. => .text "Telegram to 1: sent".toList
  | .executeFn => some (.text [])
  | .notifyAgentLoop .. => ()
  | .executeOrRequest _ => none
  | .insertRun _ => some "run".toList
  | .updateRun .. => some ()
  | .selectRunByPending _ => some none
  | .checkBudget _ => some false
  | .generationService => some ()
  | .callModel .. => some []
  | .availableTools => []
  | .webhookTargets => []
  | .recipientAllowed _ => false
  | .allowedMcpTargets => []
  | .validateUrl _ => false
  | .grantNames => []

end RagLeap.Core
