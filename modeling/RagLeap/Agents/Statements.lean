import Mathlib.Data.Rat.Defs
import RagLeap.Foundations.Dict
import RagLeap.Foundations.Json
import RagLeap.Foundations.Pool

/-!
# The statements of ragleap-agents

An agent of `ragleap_agents` asks a model, reads the clock, draws identifiers, keeps the states of
its runs in a store and calls tools. Each of these is a statement of `Agents`; a tool's handler is
a program over the same statements, since a handler may run another agent.

Three things a statement carries are read by nobody and only say in a trace what is going on: what
an identifier is drawn for, which call a tool is entered for (`Launch`), and which store is meant.
-/

namespace RagLeap.Agents

/-! ## Data -/

/-- The library functions the package relies on: `json.loads`, `json.dumps` with a string for what
has no JSON form (and with sorted keys), the hexadecimal SHA-256 digest, `str()` of a value that is
no string, `==` of two JSON values, and whether a character matches a letter under `(?i)`. -/
structure Env where
  loads : Str → Option Json
  dumps : Json → Str
  dumpsSorted : Json → Str
  sha256 : Str → Str
  repr : Json → Str
  equal : Json → Json → Bool
  sameLetter : Char → Char → Bool
  sameLetter_ascii : ∀ c d, c.toNat < 128 → d.toNat < 128 →
    sameLetter c d = (c.toLower == d.toLower)

structure ToolPolicy where
  taints : Bool := true
  outbound : Bool := true
  requiresApproval : Bool := false
  deriving DecidableEq

def TRUSTED : ToolPolicy := { taints := false, outbound := false }

structure Policy where
  maxSteps : ℤ := 4
  deadlineSeconds : Option ℚ := some 120
  tools : Dict Str ToolPolicy := .empty
  obsCap : ℤ := 1500
  obsPromptCap : ℤ := 4000
  textCap : ℤ := 2000
  repairAttempts : ℤ := 0

def Policy.forTool (p : Policy) (name : Str) : ToolPolicy := (p.tools.get? name).getD {}

inductive RunStatus
  | running | awaitingApproval | done | rejected | failed | stopped
  deriving DecidableEq

inductive StepStatus
  | executed | error | rejected
  deriving DecidableEq

/-- The name of a tool and the digest of its arguments. -/
abbrev Sig : Type := Str × Str

structure Step where
  tool : Str
  arguments : Json
  sig : Sig
  status : StepStatus
  forcedApproval : Bool
  observation : Str

structure PendingCall where
  callId : Str
  tool : Str
  arguments : Json
  sig : Sig
  forced : Bool

/-- What a root run has spent on delegation. -/
structure Counters where
  delegations : ℕ
  childSteps : ℕ
  deriving DecidableEq

structure RunState where
  runId : Str
  task : Str
  status : RunStatus
  stopReason : Str
  steps : List Step
  tainted : Bool
  pending : Option PendingCall
  summary : Str
  delegation : Option Counters

structure RunResult where
  runId : Str
  status : RunStatus
  stopReason : Str
  answer : Str
  steps : List Step
  pending : Option PendingCall
  tainted : Bool

/-- The tool call a run was started in; `delegation` is the dictionary the root run shares. -/
structure RunContext where
  runId : Str
  depth : ℕ
  tainted : Bool
  delegation : Counters

/-- A state store; `atomic` says whether it offers `save_if_status`. -/
structure Store where
  name : ℕ
  atomic : Bool
  deriving DecidableEq

/-- What `tool.call` comes to: a successful result, as `json.dumps` sees it, an error, a value that
is no `ToolResult`, or an exception of the named type. -/
inductive ToolOutcome
  | success (result : Json)
  | failure (error : Str)
  | unexpected
  | raised (exception : Str)

/-- What the model callable comes to; `other` is a value that is no string, as `str()` shows it. -/
inductive LlmReply
  | raised
  | text (text : Str)
  | other (shown : Str)

/-- What `store.load` comes to; a stored state is found under its own run id. -/
inductive Loaded (runId : Str)
  | refused
  | raised (exception : Str)
  | missing
  | found (state : {s : RunState // s.runId = runId})

/-! ## Statements -/

/-- What an identifier is drawn for: a run at some depth, or a call that awaits approval. -/
inductive Ident
  | run (depth : ℕ)
  | call
  deriving DecidableEq

/-- The call a tool is entered for: its tool and that tool's policy, its signature, and the id
under which it was approved, if it was. -/
structure Launch where
  tool : Str
  policy : ToolPolicy
  sig : Sig
  approved : Option Str
  deriving DecidableEq

inductive Act
  | llm (prompt : Str)
  | now
  | uuid (use : Ident)
  | load (store : Store) (runId : Str)
  | save (store : Store) (runId : Str) (state : RunState)
  | saveIfStatus (store : Store) (runId : Str) (state : RunState) (expected : RunStatus)
  | enterRun (ctx : RunContext) (launch : Launch)
  | leaveRun
  /-- A handler that is no part of the package. -/
  | external (tool : Str) (ctx : RunContext) (arguments : List (Str × Json))

/-- The answers; an exception of a store is its type. -/
def Act.Res : Act → Type
  | llm _ => LlmReply
  | now => ℚ
  | uuid _ => Str
  | load _ runId => Loaded runId
  | save .. => Except Str Unit
  | saveIfStatus .. => Except Str Bool
  | enterRun .. => Unit
  | leaveRun => Unit
  | external .. => ToolOutcome

abbrev Acts : Signature := ⟨Act, Act.Res⟩

/-- Issues one statement and returns the answer. -/
def exec (o : Act) : Prog Acts o.Res := .op o fun r => .ret r

@[simp] theorem exec_bind {α : Type} (o : Act) (f : o.Res → Prog Acts α) :
    (exec o >>= f) = .op o f := rfl

/-! ## Tools -/

/-- Nesting of tool calls, and the run ids drawn so far. -/
structure Reach where
  nested : ℕ
  drawn : List Str

/-- A stretch that leaves the tool calls it enters, and forgets no id. -/
def Reach.Around (φ φ' : Reach) : Prop := φ'.nested = φ.nested ∧ φ.drawn ⊆ φ'.drawn

/-- What a handler does to the runs around it: it leaves the tool calls it enters and no others,
and it writes no run and enters no tool for one but the runs it started. -/
def confined : Protocol Acts where
  Phase := Reach
  permits
    | φ, .enterRun ctx _ => ctx.runId ∈ φ.drawn
    | φ, .leaveRun => 0 < φ.nested
    | φ, .save _ runId _ | φ, .saveIfStatus _ runId _ _ => runId ∈ φ.drawn
    | _, _ => True
  next
    | φ, .enterRun .., _ => some { φ with nested := φ.nested + 1 }
    | φ, .leaveRun, _ => some { φ with nested := φ.nested - 1 }
    | φ, .uuid (.run _), runId => some { φ with drawn := runId :: φ.drawn }
    | φ, _, _ => some φ

/-- The schema of one argument. -/
structure ParamSpec where
  type : Option Json
  enum : Option (List Json)

/-- The part of a JSON Schema the package reads. -/
structure Schema where
  properties : Dict Str ParamSpec
  required : List Str

/-- A tool, with a handler that is confined to the runs it starts. The handler is given the shared
counters in the context and returns them. -/
structure Tool where
  name : Str
  description : Str
  parameters : Schema
  handler : RunContext → List (Str × Json) → Prog Acts (ToolOutcome × Counters)
  confines : ∀ ctx args (φ : Reach),
    (handler ctx args).Follows confined (fun φ' _ => φ.Around φ') φ

/-- A tool whose handler is no part of the package. -/
def Tool.external (name description : Str) (parameters : Schema) : Tool where
  name := name
  description := description
  parameters := parameters
  handler ctx args := do
    let out ← exec (.external name ctx args)
    pure (out, ctx.delegation)
  confines _ _ φ := by
    refine ⟨trivial, fun out φ' h => ?_⟩
    cases h
    exact ⟨rfl, List.Subset.refl _⟩

/-- `_NAME_RE`; `$` lets a line break stand at the end. -/
def isName (s : Str) : Bool :=
  let ok (c : Char) : Bool := ('A' ≤ c && c ≤ 'Z') || ('a' ≤ c && c ≤ 'z') ||
    ('0' ≤ c && c ≤ '9') || c = '_' || c = '.' || c = '-'
  let body := if s.getLast? = some '\n' then s.dropLast else s
  decide (1 ≤ body.length ∧ body.length ≤ 64) && body.all ok

/-- An agent that `__init__` accepts. -/
structure Agent where
  tools : List Tool
  policy : Policy
  store : Store
  summarize : Bool
  native : Bool
  named : ∀ tool ∈ tools, isName tool.name = true
  distinct : (tools.map Tool.name).Nodup
  declared : ∀ name, policy.tools.get? name ≠ none → name ∈ tools.map Tool.name

namespace Agent

variable (a : Agent)

/-- `self.tools.get(name)`. -/
def tool? (name : Str) : Option Tool := a.tools.find? fun t => t.name = name

theorem mem_tools_of_tool? {a : Agent} {name : Str} {t : Tool} (h : a.tool? name = some t) :
    t ∈ a.tools ∧ t.name = name := by
  refine ⟨List.mem_of_find?_eq_some h, ?_⟩
  simpa using List.find?_some h

end Agent

end RagLeap.Agents
