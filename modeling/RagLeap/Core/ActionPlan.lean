import RagLeap.Core.Statements

/-!
# Action plans

`core/employees/actions.py`: a model's reply is read as a JSON object (`parsePlan`) and accepted as
a plan only for a configured tool with an allowed target (`validatePlan`). `validatePlan_asks`: the
checks ask about the configuration and do nothing else.
-/

namespace RagLeap.Core

def MAX_ACTION_CONTENT : ℕ := 2000

/-- `MAX_REL_CHARS` of `core/file_access.py`. -/
def MAX_REL_CHARS : ℕ := 300

/-- A proposal that passed the checks. -/
structure Plan where
  tool : Str
  channel : Str
  target : Str
  content : Str
  subject : Str
  deriving DecidableEq

/-- The channel `ACTION_TOOLS` gives for a tool. -/
def toolChannel (tool : Str) : Option Str :=
  ([("send_webhook", "webhook"), ("send_slack", "slack"), ("send_email", "email"),
    ("create_task", "task"), ("notify_owner", "notify_owner"), ("mcp_call", "mcp"),
    ("run_code", "code"), ("run_shell", "shell"), ("fetch_page", "fetch"),
    ("list_files", "files_list"), ("read_file", "files_read"),
    ("request_access", "files_request")].find? fun e => e.1.toList = tool).map (·.2.toList)

/-! ## The model's reply -/

/-- From the first `{` to the last `}`, as a JSON object. -/
def parsePlan (env : Env) (text : Str) : Option (List (Str × Json)) :=
  let fromBrace := text.dropWhile (· ≠ '{')
  let body := (fromBrace.reverse.dropWhile (· ≠ '}')).reverse
  if body = [] then none
  else
    match env.loads body with
    | some (.obj members) => some members
    | _ => none

/-- `str(value)`. -/
def Json.text (env : Env) : Json → Str
  | .str s => s
  | v => env.repr v

/-- Whether a value counts as false; a fraction does when it prints as a zero. -/
def Json.isFalsy (env : Env) : Json → Bool
  | .null | .bool false | .int 0 | .str [] | .arr [] | .obj [] => true
  | .float t => env.repr (.float t) ∈ ["0.0".toList, "-0.0".toList]
  | _ => false

/-- `str(plan.get(name, ""))`. -/
def memberText (env : Env) (plan : List (Str × Json)) (name : String) : Str :=
  match plan.lookup name.toList with
  | none => []
  | some v => Json.text env v

/-- `str(plan.get(name, "") or "")`. -/
def memberOrEmpty (env : Env) (plan : List (Str × Json)) (name : String) : Str :=
  match plan.lookup name.toList with
  | none => []
  | some v => if Json.isFalsy env v then [] else Json.text env v

/-! ## Grant names and paths -/

/-- A full match of `[a-z0-9][a-z0-9_-]{0,31}`. -/
def isGrantName (s : Str) : Bool :=
  let alnum (c : Char) : Bool := ('a' ≤ c && c ≤ 'z') || ('0' ≤ c && c ≤ '9')
  match s with
  | [] => false
  | c :: cs => alnum c && decide (cs.length ≤ 31) && cs.all fun d => alnum d || d = '_' || d = '-'

/-- The path inside a grant, or `none` if it should not even be sent. -/
def cleanRel (list : Bool) (rel : Str) : Option Str :=
  let rel := Str.strip rel
  if list ∧ (rel = [] ∨ rel = ['.']) then some []
  else if rel = [] ∨ MAX_REL_CHARS < rel.length ∨ '\x00' ∈ rel ∨ '\n' ∈ rel ∨ '\r' ∈ rel ∨
      '\\' ∈ rel then none
  else if ['/'] <+: rel ∨ ['.', '.'] ∈ rel.splitOn '/' then none
  else some rel

/-! ## Checking a plan -/

/-- The content of an access request: one line of printable characters. -/
def accessReason (env : Env) (content : Str) : Str :=
  Str.strip (((([' '].intercalate (Str.words content))).filter env.unicode.isPrintable).take 300)

/-- The checks of one tool, on the stripped target, the content as given and as cut to length, and
the subject: the target and content to go on with. -/
def checkTool (env : Env) (tool target given content subject : Str) :
    Proc Statements (Option (Str × Str)) :=
  if tool = "send_webhook".toList then do
    let targets ← exec .webhookTargets
    pure (if target ∈ targets then some (target, content) else none)
  else if tool = "send_email".toList then do
    let allowed ← exec (.recipientAllowed target)
    pure (if ¬ allowed then none
      else if subject = [] then some (target, content)
      else some (target, "Subject: ".toList ++ subject ++ "\n\n".toList ++ content))
  else if tool = "create_task".toList then
    if target = [] then pure (some (target, content))
    else do
      match ← exec (.readRole target) with
      -- an unknown role: the task is left unassigned
      | .ok none => pure (some ([], content))
      | .ok (some _) => pure (some (target, content))
      | _ => Proc.throw
  else if tool = "notify_owner".toList then pure (some ([], content))
  else if tool = "mcp_call".toList then do
    let targets ← exec .allowedMcpTargets
    pure (if target ∉ targets then none
      else
        match env.loads content with
        | some (.obj _) => some (target, content)
        | _ => none)
  else if tool = "fetch_page".toList then do
    let valid ← exec (.validateUrl target)
    pure (if valid then some (target, content) else none)
  else if tool = "run_shell".toList ∨ tool = "run_code".toList then
    -- never run a silently truncated command
    pure (if MAX_ACTION_CONTENT < (Str.strip given).length then none else some ([], content))
  else if tool = "request_access".toList then
    pure (if ¬ isGrantName target then none
      else
        let reason := accessReason env content
        if reason = [] then none else some (target, reason))
  else if tool = "list_files".toList ∨ tool = "read_file".toList then do
    let grants ← exec .grantNames
    pure (if target ∉ grants then none
      else (cleanRel (tool = "list_files".toList) given).map fun cleaned =>
        (target, if cleaned = [] then ['.'] else cleaned))
  else pure (some ("slack".toList, content))

/-- Accepts a proposal only if it is a configured tool with an allowed target. -/
def validatePlan (env : Env) (plan : List (Str × Json)) (tools : List (Str × Str)) :
    Proc Statements (Option Plan) :=
  let tool := Str.strip (memberText env plan "tool")
  let target := Str.strip (memberOrEmpty env plan "target")
  let given := memberOrEmpty env plan "content"
  let content := (Str.strip given).take MAX_ACTION_CONTENT
  let subject := (Str.strip ((memberOrEmpty env plan "subject").map fun c =>
    if c = '\r' ∨ c = '\n' then ' ' else c)).take 200
  if tool ∉ tools.map Prod.fst then pure none
  else if content = [] then pure none
  else do
    match ← checkTool env tool target given content subject with
    | none => pure none
    | some (target, content) =>
      match toolChannel tool with
      | some channel => pure (some ⟨tool, channel, target, content, subject⟩)
      | none => Proc.throw

/-! ## The checks only ask -/

/-- The questions about the configuration. -/
inductive Asks : Stmt → Prop
  | webhookTargets : Asks .webhookTargets
  | recipientAllowed (target : Str) : Asks (.recipientAllowed target)
  | readRole (role : Str) : Asks (.readRole role)
  | allowedMcpTargets : Asks .allowedMcpTargets
  | validateUrl (target : Str) : Asks (.validateUrl target)
  | grantNames : Asks .grantNames

theorem checkTool_asks (env : Env) (tool target given content subject : Str) :
    (checkTool env tool target given content subject).run.Only Asks := by
  have hask {o : Stmt} (ho : Asks o) (f : o.Res → Option (Str × Str)) :
      (exec o >>= fun r => (pure (f r) : Proc Statements _)).run.Only Asks :=
    (Prog.Only.op_iff _ _).2 ⟨ho, fun _ => trivial⟩
  have hrole : (exec (.readRole target) >>= fun
      | .ok none => pure (some ([], content))
      | .ok (some _) => pure (some (target, content))
      | _ => Proc.throw : Proc Statements (Option (Str × Str))).run.Only Asks := by
    refine (Prog.Only.op_iff _ _).2 ⟨.readRole _, fun ans => ?_⟩
    rcases ans with (_ | row) | _ | _ <;> trivial
  exact Proc.only_ite (hask .webhookTargets _) <|
    Proc.only_ite (hask (.recipientAllowed _) _) <|
    Proc.only_ite (Proc.only_ite trivial hrole) <|
    Proc.only_ite trivial <|
    Proc.only_ite (hask .allowedMcpTargets _) <|
    Proc.only_ite (hask (.validateUrl _) _) <|
    Proc.only_ite trivial <|
    Proc.only_ite trivial <|
    Proc.only_ite (hask .grantNames _) trivial

/-- Checking a plan asks about the configuration and does nothing else. -/
theorem validatePlan_asks (env : Env) (plan : List (Str × Json)) (tools : List (Str × Str)) :
    (validatePlan env plan tools).run.Only Asks := by
  refine Proc.only_ite trivial <| Proc.only_ite trivial <|
    Proc.only_bind (checkTool_asks _ _ _ _ _ _) fun checked => ?_
  rcases checked with _ | ⟨target, content⟩
  · trivial
  · dsimp only
    split <;> trivial

end RagLeap.Core
