import Mathlib.Algebra.Order.Floor.Ring
import Mathlib.Data.Rat.Floor
import RagLeap.Core.AgentLoop
import RagLeap.Core.Sensitivity
import RagLeap.Core.Usage

/-!
# Chat requests

`core/chat.py::ask` with what it calls: the budget checks, automatic routing (`route_task`), team
runs (`run_team`), the answer with its fallback chain, and the action that may follow it. The role a
call chain works for is ambient state, set by `setRole` and read when a call is written to the
ledger.

A prompt is given by what it is made of. `enter` and `leave` mark where a call of `ask` begins and
ends; they do nothing.
-/

namespace RagLeap.Chat

open Budget (Config)
open Core (Env Stmt Statements)

/-! ## Data -/

/-- A row of `employee_roles`, as far as routing reads it. -/
structure RoleInfo where
  role : Str
  displayName : Str
  skillTags : List Str

/-- A retrieved chunk. -/
structure Chunk where
  documentName : Str
  text : Str

/-- How a request was routed. -/
inductive Method
  | llm | keyword | default | team
  deriving DecidableEq

/-- The answered part of a team run. -/
structure Part where
  subtask : Str
  role : Option Str
  method : Option Method
  answer : Str
  provider : Str

/-- The prompts, by what they are made of. -/
inductive Prompt
  | split (query : Str)
  | merge (query : Str) (parts : List Part)
  | route (task : Str) (allowed : List RoleInfo)
  | answer (query : Str) (chunks : List Chunk) (system : Option Str) (reasoning : Bool)
  | approach (query : Str) (chunks : List Chunk) (system : Option Str) (hint : ℕ)
  | pick (query : Str) (chunks : List Chunk) (candidates : List Str)
  | ground (answer : Str) (chunks : List Chunk) (query : Str)
  | act (query answer : Str) (tools : List (Str × Str))
  | loop (prompt : Str)

/-- What `_call_provider` returns. -/
structure Reply where
  text : Str
  finishReason : Option Str

/-- The outcome of an action. -/
inductive Acted
  | skipped
  | plan (p : Core.Plan) (reply : Core.GateReply)
  | run (o : Core.Outcome)

/-- The dictionary `ask` returns. -/
structure Result where
  answer : Str
  providerUsed : Option Str
  routedRole : Option Str
  method : Option Method
  budgetExceeded : Bool
  action : Option Acted
  team : List Part

/-- The environment of a request: the settings and the character classes of regular expressions,
which ignore the case of letters by `sameLetter`. -/
structure ChatEnv extends Env where
  isWord : Char → Bool
  sameLetter : Char → Char → Bool
  /-- The answer part of `_split_reasoning_and_answer`. -/
  finalAnswer : Str → Str
  /-- `int(re.search(r"\d+", text).group())`. -/
  firstNumber : Str → Option ℕ
  TEAM_MAX_SUBTASKS : ℕ
  TEAM_MAX_TOKENS : ℕ
  SUPERVISOR_MAX_TOKENS : ℕ
  ACTION_PLAN_MAX_TOKENS : ℕ
  MAX_OUTPUT_TOKENS : ℕ
  TRUNCATION_RETRY_MULTIPLIER : ℚ
  TRUNCATION_MAX_RETRY_TOKENS : ℕ
  REASONING_MODE_TOKEN_MULTIPLIER : ℚ
  TOT_NUM_PATHS : ℕ
  TOT_JUDGE_MAX_TOKENS : ℕ
  GROUNDING_CHECK_MAX_TOKENS : ℕ

/-! ## Statements -/

inductive Op
  | enter
  | leave
  | setRole (role : Option Str)
  | checkBudget (role : Option Str)
  /-- `_call_provider`: the provider's call and, if it goes through, its ledger row. -/
  | callProvider (config : Config) (prompt : Prompt) (maxTokens : ℕ)
  /-- A streamed call and, if it gave a piece or came to its end, its ledger row. -/
  | streamProvider (config : Config) (prompt : Prompt) (maxTokens : ℕ)
  | generationService
  | fallbackChain
  | listRoles
  /-- `_prepare`. -/
  | prepare (query : Str)
  /-- `_build_system_prompt`. -/
  | systemPrompt (role : Option Str) (query : Str)
  /-- `_augment_query_with_reminder`. -/
  | augment (role : Option Str) (query : Str)
  | other (o : Stmt)

/-- How a stream went: whether a piece came, and whether it came to its end. -/
structure Streamed where
  gavePiece : Bool
  finished : Bool

/-- `none` in an `Option` answer: the statement raises. -/
abbrev Op.Res : Op → Type
  | enter | leave | setRole _ => Unit
  | checkBudget _ => Bool
  | callProvider .. => Option Reply
  | streamProvider .. => Streamed
  | generationService => Option Config
  | fallbackChain => Option (List Config)
  | listRoles => Option (List RoleInfo)
  -- the chunks, or none if the embedding failed
  | prepare _ => Option (Option (List Chunk))
  | systemPrompt .. => Option (Option Str)
  | augment .. => Option Str
  | other o => o.Res

abbrev Requests : Signature := ⟨Op, Op.Res⟩

/-- A procedure of a request. -/
abbrev Request (α : Type) : Type := Proc Requests α

abbrev exec (o : Op) : Request o.Res := Proc.call (S := Requests) o

/-- A statement that may raise. -/
def raising {α : Type} (p : Request (Option α)) : Request α := do
  match ← p with
  | some a => pure a
  | none => Proc.throw

/-! ## Model calls -/

/-- `_call_provider`. -/
def callProvider (config : Config) (prompt : Prompt) (maxTokens : ℕ) : Request Reply :=
  raising (exec (.callProvider config prompt maxTokens))

/-- A call that is made once more, with twice the tokens, if its reply is empty. -/
def callTwice (config : Config) (prompt : Prompt) (maxTokens : ℕ) : Request Str := do
  let reply ← callProvider config prompt maxTokens
  if Str.strip reply.text = [] then
    let reply ← callProvider config prompt (2 * maxTokens)
    pure reply.text
  else pure reply.text

/-- The attempts at one provider in `call_with_fallback`: the text, if it gave one, and whether an
attempt raised. -/
def attempts (config : Config) (prompt : Prompt) (maxTokens : ℕ) :
    ℕ → Request (Option Str × Bool)
  | 0 => pure (none, false)
  | n + 1 => do
    match ← Proc.attempt (callTwice config prompt maxTokens) with
    | some text => pure (if Str.strip text = [] then none else some text, false)
    | none =>
      let (text, _) ← attempts config prompt maxTokens n
      pure (text, true)

/-- The loop of `call_with_fallback`. -/
def tryChain (prompt : Prompt) (maxTokens : ℕ) : List Config → Bool → Request Str
  | [], raised => if raised then Proc.throw else pure []
  | config :: chain, raised => do
    match ← attempts config prompt maxTokens 2 with
    | (some text, _) => pure text
    | (none, failed) => tryChain prompt maxTokens chain (raised || failed)

/-- `call_with_fallback`. -/
def callWithFallback (primary : Config) (prompt : Prompt) (maxTokens : ℕ) : Request Str := do
  let chain := (← exec .fallbackChain).getD []
  tryChain prompt maxTokens (if chain = [] then [primary] else chain) false

/-- The agent loop's statements in a request: its model calls go through `call_with_fallback`. -/
def carry (primary : Config) : (o : Stmt) → Prog Requests o.Res
  | .checkBudget role => .op (.checkBudget role) fun blocked => .ret (some blocked)
  | .callModel prompt maxTokens => (callWithFallback primary (.loop prompt) maxTokens).run
  | o => .op (.other o) .ret

/-- A procedure of the core as part of a request. -/
def lift {α : Type} (primary : Config) (p : Prog Statements α) : Prog Requests α :=
  p.interp (carry primary)

/-! ## Routing -/

def DEFAULT_ROLE : Str := "support".toList

def INTENT_SAFE_ROLES : List Str := ["support", "sales", "marketing"].map String.toList

def INTENT_KEYWORDS : List (Str × List Str) :=
  [("sales", ["price", "pricing", "buy", "purchase", "demo", "quote", "discount", "plan"]),
    ("marketing", ["campaign", "promotion", "newsletter", "partnership", "collaborate"])].map
      fun e => (e.1.toList, e.2.map String.toList)

/-- `detect_intent_role`. -/
def detectIntentRole (env : ChatEnv) (message : Str) : Option Str :=
  let normalized := env.unicode.lower (Str.strip message)
  (INTENT_KEYWORDS.find? fun e => e.2.any fun kw => decide (kw <:+: normalized)).map Prod.fst

/-- The text begins with the word, letters compared without their case. -/
def startsWith (env : ChatEnv) : Str → Str → Bool
  | [], _ => true
  | _ :: _, [] => false
  | c :: word, d :: text => env.sameLetter c d && startsWith env word text

/-- The first position of the name as a whole word. -/
def findWord (env : ChatEnv) (name reply : Str) : Option ℕ :=
  (List.range (reply.length + 1)).find? fun i =>
    startsWith env name (reply.drop i) &&
      !((reply.take i).getLast?.any env.isWord) &&
      !((reply.drop (i + name.length)).head?.any env.isWord)

/-- `_parse_role`: the allowed name that stands first in the reply. -/
def parseRole (env : ChatEnv) (reply : Str) (names : List Str) : Option Str :=
  (names.foldl (fun best name =>
    match findWord env name reply, best with
    | none, best => best
    | some i, none => some (name, i)
    | some i, some (other, j) => if i < j then some (name, i) else some (other, j))
    (none : Option (Str × ℕ))).map Prod.fst

/-- What `route_task` returns. -/
structure Routed where
  role : Str
  method : Method

/-- `_allowed_roles`. -/
def allowedRoles (trusted : Bool) : Request (List RoleInfo) := do
  let rows := (← exec .listRoles).getD []
  pure (if trusted then rows else rows.filter fun r => r.role ∈ INTENT_SAFE_ROLES)

/-- Routing without the model: by keyword, or else the default. -/
def routeByKeyword (env : ChatEnv) (task : Str) (names : List Str) : Routed :=
  match detectIntentRole env task with
  | some role => if names = [] ∨ role ∈ names then ⟨role, .keyword⟩ else ⟨DEFAULT_ROLE, .default⟩
  | none => ⟨DEFAULT_ROLE, .default⟩

/-- `route_task`. -/
def routeTask (env : ChatEnv) (primary : Config) (trusted : Bool) (task : Str) :
    Request Routed := do
  let allowed ← allowedRoles trusted
  let names := allowed.map RoleInfo.role
  if names = [] ∨ Str.strip task = [] then pure (routeByKeyword env task names)
  else
    match ← Proc.attempt (callTwice primary (.route task allowed) env.SUPERVISOR_MAX_TOKENS) with
    | none => pure (routeByKeyword env task names)
    | some reply =>
      match parseRole env reply names with
      | some role => pure ⟨role, .llm⟩
      | none => pure (routeByKeyword env task names)

/-! ## Answers -/

def TRUNCATED_FINISH_REASONS : List Str := ["MAX_TOKENS", "max_tokens", "length"].map String.toList

/-- `int(n * factor)`. -/
def scaled (n : ℕ) (factor : ℚ) : ℕ := ⌊n * factor⌋.toNat

/-- The tokens of the retry after a truncated answer, if there is to be one. -/
def retryTokens (env : ChatEnv) (reply : Reply) (maxTokens : ℕ) : Option ℕ :=
  let more := min (scaled maxTokens env.TRUNCATION_RETRY_MULTIPLIER) env.TRUNCATION_MAX_RETRY_TOKENS
  if reply.finishReason.any (· ∈ TRUNCATED_FINISH_REASONS) ∧
      maxTokens < env.TRUNCATION_MAX_RETRY_TOKENS ∧ maxTokens < more then some more
  else none

/-- The call of one provider for an answer, with the retry. -/
def answerFrom (env : ChatEnv) (config : Config) (prompt : Prompt) (maxTokens : ℕ) :
    Request Str := do
  let reply ← callProvider config prompt maxTokens
  match retryTokens env reply maxTokens with
  | none => pure reply.text
  | some more =>
    match ← Proc.attempt (callProvider config prompt more) with
    | some retry => pure retry.text
    | none => pure reply.text

/-- The loop of `generate_answer` over the chain: the answer and its provider. -/
def answerChain (env : ChatEnv) (prompt : Prompt) (maxTokens : ℕ) :
    List Config → Request (Option (Str × Config))
  | [] => pure none
  | config :: chain => do
    match ← Proc.attempt (answerFrom env config prompt maxTokens) with
    | some text => pure (some (text, config))
    | none => answerChain env prompt maxTokens chain

/-- The candidates of `tree_of_thought`, one a hint; a call that fails gives none. -/
def candidates (primary : Config) (prompt : ℕ → Prompt) (maxTokens : ℕ) :
    List ℕ → Request (List Str)
  | [] => pure []
  | hint :: hints => do
    let text := (← Proc.attempt (callProvider primary (prompt hint) maxTokens)).elim [] fun reply =>
      Str.strip reply.text
    let rest ← candidates primary prompt maxTokens hints
    pure (if text = [] then rest else text :: rest)

/-- `tree_of_thought`: the chosen answer, if at least two could be made. -/
def treeOfThought (env : ChatEnv) (primary : Config) (query : Str) (chunks : List Chunk)
    (system : Option Str) (maxTokens : ℕ) : Request (Option Str) := do
  let hints := List.range (max 2 (min env.TOT_NUM_PATHS 3))
  let found ← candidates primary (.approach query chunks system) maxTokens hints
  if found.length < 2 then pure none
  else
    let picked ← Proc.attempt
      (callTwice primary (.pick query chunks found) env.TOT_JUDGE_MAX_TOKENS)
    let index :=
      match picked.bind env.firstNumber with
      | some n => if 1 ≤ n ∧ n ≤ found.length then n - 1 else 0
      | none => 0
    pure (found[index]?)

/-- The text of `GENERIC_FAILURE_MESSAGE`. -/
def GENERIC_FAILURE_MESSAGE : Str :=
  "Sorry, I couldn't generate an answer; all configured providers failed. ".toList ++
    "Please try again later.".toList

/-- The answer of the tree of thought, in that mode. -/
def totAnswer (env : ChatEnv) (primary : Config) (query : Str) (chunks : List Chunk)
    (system : Option Str) (maxTokens : ℕ) (tot : Bool) : Request (Option Str) :=
  if tot then treeOfThought env primary query chunks system maxTokens else pure none

/-- `generate_answer`: the answer, and the provider used if one answered. -/
def generateAnswer (env : ChatEnv) (primary : Config) (query : Str) (chunks : List Chunk)
    (system : Option Str) (maxTokens : Option ℕ) (reasoning tot : Bool) :
    Request (Str × Option Str) := do
  let maxTokens := maxTokens.getD env.MAX_OUTPUT_TOKENS
  match ← totAnswer env primary query chunks system maxTokens tot with
  | some answer => pure (answer, some primary.provider)
  | none =>
    let more := if reasoning then scaled maxTokens env.REASONING_MODE_TOKEN_MULTIPLIER else maxTokens
    let chain ← raising (exec .fallbackChain)
    match ← answerChain env (.answer query chunks system reasoning) more chain with
    | some (text, config) =>
      pure (if reasoning then env.finalAnswer text else text, some config.provider)
    | none => pure (GENERIC_FAILURE_MESSAGE, none)

/-- `check_grounding`: whether it has a concern. -/
def checkGrounding (env : ChatEnv) (primary : Config) (answer : Str) (chunks : List Chunk)
    (query : Str) : Request Bool := do
  match ← Proc.attempt
      (callTwice primary (.ground answer chunks query) env.GROUNDING_CHECK_MAX_TOKENS) with
  | some text => pure ("NOT_GROUNDED".toList.isPrefixOf (env.unicode.upper (Str.strip text)))
  | none => pure false

/-! ## Actions -/

/-- `plan_action`. -/
def planAction (env : ChatEnv) (primary : Config) (query answer : Str) :
    Request (Option Core.Plan) := do
  let tools ← exec (.other .availableTools)
  if tools = [] ∨ Str.strip query = [] then pure none
  else
    let planned ← Proc.attempt (do
      let text ← callWithFallback primary (.act query answer tools) env.ACTION_PLAN_MAX_TOKENS
      match Core.parsePlan env.toEnv text with
      | none | some [] => pure none
      | some plan => OptionT.mk (lift primary (Core.validatePlan env.toEnv plan tools).run))
    pure planned.join

/-- `maybe_act`. -/
def maybeAct (env : ChatEnv) (primary : Config) (query answer : Str) (role : Option Str) :
    Request (Option Acted) := do
  match ← planAction env primary query answer with
  | none => pure none
  | some plan =>
    let reply ← raising (exec (.other (.executeOrRequest
      ⟨⟨plan.tool, plan.channel, plan.target, plan.content, plan.subject, role⟩, false, false⟩)))
    pure (some (.plan plan reply))

/-- `agent_loop.run`. -/
def runLoop (env : ChatEnv) (primary : Config) (query answer : Str) (role : Option Str) :
    Request (Option Acted) := do
  let outcome ← OptionT.lift (lift primary (Core.run env.toEnv query answer true role))
  pure (outcome.map .run)

/-! ## Requests -/

/-- The arguments of `ask` that a team run hands on, and the owner's switches. -/
structure Args where
  system : Option Str
  maxTokens : Option ℕ

def BUDGET_MESSAGE : Str :=
  ("Sorry, the usage limit for this assistant has been reached for now. ".toList ++
    "Please try again later.".toList)

/-- `_budget_blocked_result`. -/
def blockedResult : Result := ⟨BUDGET_MESSAGE, none, none, none, true, none, []⟩

def EMBEDDING_FAILED : Str :=
  "Sorry, I couldn't process your question (embedding failed).".toList

def UNSUPPORTED_NOTE : Str :=
  "\n\nNote: part of this answer may not be fully supported by the ".toList ++
    "available documents -- please verify independently before relying on it.".toList

/-- `is_sensitive_role`, which is false without a role. -/
def isSensitive (env : ChatEnv) (primary : Config) (role : Option Str) : Request Bool :=
  match role with
  | none => pure false
  | some role => OptionT.mk (lift primary (Core.isSensitiveRole env.toEnv role).run)

/-- What `ask` does after routing, for an answer the provider gave: the action, if one is asked
for. -/
def act (env : ChatEnv) (primary : Config) (query answer : Str) (role : Option Str)
    (trusted : Bool) : Request (Option Acted) :=
  if ¬ trusted then pure (some .skipped)
  else if Core.enabled env.toEnv then runLoop env primary query answer role
  else maybeAct env primary query answer role

/-- `_build_system_prompt`, which changes nothing without a role. -/
def systemFor (base : Option Str) (role : Option Str) (query : Str) : Request (Option Str) :=
  match role with
  | none | some [] => pure base
  | some role => raising (exec (.systemPrompt (some role) query))

/-- `_augment_query_with_reminder`, which changes nothing without a role. -/
def queryFor (role : Option Str) (query : Str) : Request Str :=
  match role with
  | none | some [] => pure query
  | some role => raising (exec (.augment (some role) query))

/-- The second look at the answer of a sensitive role. -/
def concernFor (env : ChatEnv) (primary : Config) (sensitive : Bool) (provider : Option Str)
    (text : Str) (chunks : List Chunk) (query : Str) : Request Bool :=
  if sensitive ∧ provider ≠ none then checkGrounding env primary text chunks query else pure false

/-- The action after an answer, if actions are allowed and a provider answered. -/
def actionFor (env : ChatEnv) (primary : Config) (query text : Str) (role : Option Str)
    (provider : Option Str) (trusted allowActions : Bool) : Request (Option Acted) :=
  if allowActions ∧ provider ≠ none then act env primary query text role trusted else pure none

/-- `ask` after routing. -/
def answer (env : ChatEnv) (args : Args) (primary : Config) (query : Str) (role : Option Str)
    (routed : Option Routed) (tot trusted allowActions : Bool) : Request Result := do
  match ← raising (exec (.prepare query)) with
  | none => pure ⟨EMBEDDING_FAILED, none, none, none, false, none, []⟩
  | some chunks =>
    let system ← systemFor args.system role query
    let generationQuery ← queryFor role query
    let sensitive ← isSensitive env primary role
    let (text, provider) ←
      generateAnswer env primary generationQuery chunks system args.maxTokens sensitive tot
    let concern ← concernFor env primary sensitive provider text chunks query
    let text := if concern then text ++ UNSUPPORTED_NOTE else text
    let action ← actionFor env primary query text role provider trusted allowActions
    pure ⟨text, provider, routed.map Routed.role, routed.map Routed.method, false, action, []⟩

/-- `_parse_subtasks`. -/
def parseSubtasks (env : ChatEnv) (text : Str) : List Str :=
  let body := ((text.dropWhile (· ≠ '[')).reverse.dropWhile (· ≠ ']')).reverse
  if body = [] then []
  else
    match env.loads body with
    | some (.arr items) =>
      ((items.filterMap Json.asStr?).map fun s => (Str.strip s).take 500).filter (· ≠ []) |>.take
        env.TEAM_MAX_SUBTASKS
    | _ => []

/-- `split_task`. -/
def splitTask (env : ChatEnv) (primary : Config) (query : Str) : Request (List Str) := do
  match ← Proc.attempt (callTwice primary (.split query) env.TEAM_MAX_TOKENS) with
  | some text => pure (parseSubtasks env (Str.strip text))
  | none => pure []

/-- `merge_answers`; empty if it failed. -/
def mergeAnswers (env : ChatEnv) (primary : Config) (query : Str) (parts : List Part) :
    Request Str := do
  match ← Proc.attempt (callTwice primary (.merge query parts) env.TEAM_MAX_TOKENS) with
  | some text => pure (Str.strip text)
  | none => pure []

/-- The answers to the sub-tasks, until one fails. -/
def answerParts (askFn : Str → Request Result) : List Str → Request (Option (List Part))
  | [] => pure (some [])
  | subtask :: subtasks => do
    let r ← askFn subtask
    match r.providerUsed with
    | none => pure none
    | some provider =>
      match ← answerParts askFn subtasks with
      | none => pure none
      | some parts => pure (some (⟨subtask, r.routedRole, r.method, r.answer, provider⟩ :: parts))

/-- `run_team`. -/
def runTeam (env : ChatEnv) (primary : Config) (query : Str) (askFn : Str → Request Result) :
    Request Result := do
  let subtasks ← splitTask env primary query
  if subtasks.length < 2 then askFn query
  else
    match ← answerParts askFn subtasks with
    | none => askFn query
    | some parts =>
      let merged ← mergeAnswers env primary query parts
      let text := if merged = [] then "\n\n".toList.intercalate (parts.map Part.answer) else merged
      pure ⟨text, parts.head?.map Part.provider, none, some .team, false, none, parts⟩

def AUTO : Str := "auto".toList
def TEAM : Str := "team".toList

/-- The role whose cap a request is checked for before routing. -/
def preRole (role : Option Str) : Option Str :=
  if role = some AUTO ∨ role = some TEAM then none else role

/-- A call of `ask`, from its beginning to its end. -/
def frame {α : Type} (body : Request α) : Request α := do
  let _ ← exec .enter
  let result ← Proc.attempt body
  let _ ← exec .leave
  match result with
  | some a => pure a
  | none => Proc.throw

/-- The body of `ask`, with the function that answers a sub-task. -/
def askBody (env : ChatEnv) (args : Args) (askFn : Str → Request Result) (query : Str)
    (role : Option Str) (tot trusted allowActions : Bool) : Request Result := do
  let _ ← exec (.setRole (preRole role))
  if ← exec (.checkBudget (preRole role)) then pure blockedResult
  else
    let primary ← raising (exec .generationService)
    if role = some TEAM then runTeam env primary query askFn
    else if role = some AUTO then
      let routed ← routeTask env primary trusted query
      let _ ← exec (.setRole (some routed.role))
      if ← exec (.checkBudget (some routed.role)) then pure blockedResult
      else answer env args primary query (some routed.role) (some routed) tot trusted allowActions
    else answer env args primary query role none tot trusted allowActions

/-- `ask(q, role="auto")`, as a team run calls it. -/
def askAuto (env : ChatEnv) (args : Args) (trusted : Bool) (query : Str) : Request Result :=
  -- a call with this role never reaches the team branch
  frame (askBody env args (fun _ => Proc.throw) query (some AUTO) false trusted false)

/-- `ask`. -/
def ask (env : ChatEnv) (args : Args) (query : Str) (role : Option Str)
    (tot trusted allowActions : Bool) : Request Result :=
  frame (askBody env args (askAuto env args trusted) query role tot trusted allowActions)

/-- The loop of `generate_answer_stream` over the chain. -/
def streamChain (prompt : Prompt) (maxTokens : ℕ) : List Config → Request Unit
  | [] => pure ()
  | config :: chain => do
    let streamed ← exec (.streamProvider config prompt maxTokens)
    if streamed.gavePiece ∨ streamed.finished then pure ()
    else streamChain prompt maxTokens chain

/-- `ask_stream` after the check. -/
def streamAnswer (env : ChatEnv) (args : Args) (query : Str) (role : Option Str) :
    Request Unit := do
  let _ ← raising (exec .generationService)
  match ← raising (exec (.prepare query)) with
  | none => pure ()
  | some chunks =>
    let system ← systemFor args.system role query
    let generationQuery ← queryFor role query
    let chain ← raising (exec .fallbackChain)
    streamChain (.answer generationQuery chunks system false)
      (args.maxTokens.getD env.MAX_OUTPUT_TOKENS) chain

/-- `ask_stream`, to the end of the stream. -/
def askStream (env : ChatEnv) (args : Args) (query : Str) (role : Option Str) : Request Unit :=
  frame do
    let _ ← exec (.setRole role)
    if ← exec (.checkBudget role) then pure ()
    else streamAnswer env args query role

end RagLeap.Chat
