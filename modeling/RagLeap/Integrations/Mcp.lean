import RagLeap.Foundations.JsonText
import RagLeap.Foundations.Task

/-!
# An MCP client under its owner's policy

`mcp.py` and `governance.py`: the tools that an owner's configuration allows are listed once, each is
flagged as needing the owner's approval or not, and a call of a tool checks the allowlist and the
approval before it is sent, to a server of the current protocol or an older one. The requests, the
approval hook and the client's own attributes are statements; the servers' answers are arbitrary, and
come as the JSON-RPC messages that the client finds in them.
-/

namespace RagLeap.Integrations

open JsonText

/-- A text of the code. -/
def lit (s : String) : PyStr := text s.toList

/-! ## Configuration -/

structure McpServerConfig where
  name : PyStr
  token : Option PyStr
  trustAnnotations : Bool

/-- `approve` says whether the owner has supplied the hook. -/
structure McpPolicy where
  approve : Bool
  preApproved : List PyStr

structure McpConfig where
  servers : List McpServerConfig
  allowedTools : List PyStr
  maxResultChars : ℕ
  maxDescriptionChars : ℕ
  maxSchemaChars : ℕ
  policy : Option McpPolicy

/-- The four hints of a tool, where they are booleans. -/
abbrev Hints : Type := List (PyStr × Bool)

/-- What the model is told about one tool. -/
structure McpToolSpec (F : Type) where
  server : PyStr
  name : PyStr
  description : PyStr
  parameters : Value F
  annotations : Hints

variable {F : Type}

/-- What the client uses of Python and of its own package: floats, `len(json.dumps(value))`, base64 of
UTF-8 where the text has one, and the version. -/
structure Lib (F : Type) where
  floats : Floats F
  dumpsLength : Value F → ℕ
  base64 : PyStr → Option PyStr
  version : PyStr

/-- `value.get(key)` of a dictionary. -/
def field (v : Value F) (key : PyStr) : Option (Value F) :=
  match v with
  | .obj members => members.lookup key
  | _ => none

def asStr? : Option (Value F) → Option PyStr
  | some (.str s) => some s
  | _ => none

def asBool? : Option (Value F) → Option Bool
  | some (.atom (.bool b)) => some b
  | _ => none

def asInt? : Option (Value F) → Option ℤ
  | some (.atom (.int n)) => some n
  | some (.atom (.bool b)) => some (if b then 1 else 0)
  | _ => none

/-! ## Governance -/

def HINT_KEYS : List PyStr :=
  ["readOnlyHint", "destructiveHint", "idempotentHint", "openWorldHint"].map lit

/-- `hints_from`. -/
def hintsFrom (annotations : Option (Value F)) : Hints :=
  match annotations with
  | none => []
  | some v => HINT_KEYS.filterMap fun k => (asBool? (field v k)).map fun b => (k, b)

/-- The hints say that the tool only reads, and not that it destroys. -/
def readsOnly (hints : Hints) : Bool :=
  hints.lookup (lit "readOnlyHint") = some true && hints.lookup (lit "destructiveHint") ≠ some true

/-- `requires_approval`. -/
def requiresApproval (key : PyStr) (hints : Hints) (trustAnnotations : Bool)
    (policy : Option McpPolicy) : Bool :=
  if policy.any fun p => key ∈ p.preApproved then false
  else if trustAnnotations && readsOnly hints then false
  else true

/-! ## Headers that mirror parameters -/

/-- The annotations of a schema that set a header. Below `properties` the keys are names. -/
def HEADER : PyStr := lit "x-mcp-header"

mutual

/-- `_count_annotations`. -/
def countAnnotations (propsMap : Bool) : Value F → ℕ
  | .obj members => countMembers propsMap members
  | .arr items => countItems items
  | _ => 0

def countMembers (propsMap : Bool) : List (PyStr × Value F) → ℕ
  | [] => 0
  | (k, v) :: members =>
    (if propsMap then countAnnotations false v
      else if k = HEADER then 1
      else if k = lit "properties" then countAnnotations true v
      else countAnnotations false v) + countMembers propsMap members

def countItems : List (Value F) → ℕ
  | [] => 0
  | v :: items => countAnnotations false v + countItems items

end

mutual

/-- The `walk` of `_header_params`: path, header name and type of each annotation. -/
def walk (path : List PyStr) : Value F → List (List PyStr × Value F × Option (Value F))
  | .obj members => walkSchema path members
  | _ => []

def walkSchema (path : List PyStr) :
    List (PyStr × Value F) → List (List PyStr × Value F × Option (Value F))
  | [] => []
  | (k, v) :: members => if k = lit "properties" then walkProps path v else walkSchema path members

def walkProps (path : List PyStr) : Value F → List (List PyStr × Value F × Option (Value F))
  | .obj props => walkEntries path props
  | _ => []

def walkEntries (path : List PyStr) :
    List (PyStr × Value F) → List (List PyStr × Value F × Option (Value F))
  | [] => []
  | (name, schema) :: props =>
    ((field schema HEADER).map fun h =>
        (path ++ [name], h, field schema (lit "type"))).toList
      ++ walk (path ++ [name]) schema ++ walkEntries path props

end

/-- `_TCHAR_RE`. -/
def isHeaderName (s : PyStr) : Bool :=
  let body := if s.getLast? = some (ch '\n') then s.dropLast else s
  body ≠ [] && body.all fun c =>
    c ∈ lit "!#$%&'*+-.^_|~" || c = ch (Char.ofNat 0x60)
      || (ch '0' ≤ c && c ≤ ch '9')
      || (ch 'A' ≤ c && c ≤ ch 'Z') || (ch 'a' ≤ c && c ≤ ch 'z')

/-- `str.lower` of a header name. -/
def lowerName (s : PyStr) : PyStr :=
  s.map fun c =>
    if ch 'A' ≤ c ∧ c ≤ ch 'Z' then point (c.val + 32) else c

/-- The checks of `_header_params` on the annotations found; none is a `_BadSchema`. -/
def checkHeaders : List PyStr → List (List PyStr × Value F × Option (Value F)) →
    Option (List (List PyStr × PyStr))
  | _, [] => some []
  | seen, (path, name, type) :: found =>
    match name with
    | .str name =>
      if isHeaderName name ∧ lowerName name ∉ seen ∧
          asStr? type ∈ ["integer", "string", "boolean"].map fun s => some (lit s) then
        (checkHeaders (lowerName name :: seen) found).map ((path, name) :: ·)
      else none
    | _ => none

/-- `_header_params`. -/
def headerParams (schema : Value F) : Option (List (List PyStr × PyStr)) :=
  let found := walk [] schema
  if countAnnotations false schema ≠ found.length then none else checkHeaders [] found

/-- The value at a path of the arguments, where there is one. -/
def atPath : List PyStr → Value F → Option (Value F)
  | [], v => some v
  | k :: path, v => (field v k).bind (atPath path)

def SAFE_INT : ℕ := 2 ^ 53 - 1

/-- `_header_values`; none is the `_Failure("bad_arguments")`. -/
def headerValues (arguments : Value F) :
    List (List PyStr × PyStr) → Option (List (PyStr × PyStr))
  | [] => some []
  | (path, name) :: params =>
    match atPath path arguments with
    | none => headerValues arguments params
    | some (.atom .null) => headerValues arguments params
    | some (.atom (.bool b)) =>
      (headerValues arguments params).map ((name, if b then lit "true" else lit "false") :: ·)
    | some (.atom (.int n)) =>
      if SAFE_INT < n.natAbs then none
      else (headerValues arguments params).map ((name, intText n) :: ·)
    | some (.str s) => (headerValues arguments params).map ((name, s) :: ·)
    | some _ => none

/-- `_encode_header_value`; none where the text has no UTF-8. -/
def encodeHeaderValue (lib : Lib F) (value : PyStr) : Option PyStr :=
  let plain := value.all (fun c => 0x20 ≤ c.val && c.val ≤ 0x7E)
    && value.head? ≠ some (ch ' ') && value.getLast? ≠ some (ch ' ')
    && !((lit "=?base64?").isPrefixOf value && (lit "?=").isSuffixOf value)
  if plain then some value
  else (lib.base64 value).map fun b => lit "=?base64?" ++ b ++ lit "?="

/-! ## Failures -/

inductive Failure
  | notAllowlisted
  | badArguments
  | httpStatus
  | badResponse
  | rpcError
  | noCommonVersion
  | legacyTransport
  | inputRequired
  | notApproved

/-- `_FAILURES`. -/
def Failure.text : Failure → PyStr
  | notAllowlisted => lit "MCP tool is not allowlisted"
  | badArguments => lit "MCP tool arguments are not valid"
  | httpStatus => lit "MCP server returned an HTTP error"
  | badResponse => lit "MCP server sent an unusable response"
  | rpcError => lit "MCP server returned an error"
  | noCommonVersion => lit "MCP server and client share no protocol version"
  | legacyTransport => lit "MCP server does not use a transport this client supports"
  | inputRequired => lit "MCP server asked for client input, which is not supported"
  | notApproved => lit "MCP call was not approved"

/-- What is raised in the client; `other` is any other `Exception`, `aborted` what is none. -/
inductive Raised
  | failure (code : Failure) (detail : PyStr)
  | transport (message : PyStr)
  | useLegacy (code : Option ℤ)
  | unsupportedVersion (supported : List PyStr)
  | other
  | aborted

/-- `_Failure.message`. -/
def message (code : Failure) (detail : PyStr) : PyStr :=
  if detail = [] then code.text else code.text ++ lit " (" ++ detail ++ lit ")"

/-! ## The statements -/

inductive Era
  | modern
  | legacy
  deriving DecidableEq

/-- A reply: its status, the session header, the response to the request's id that the client finds in
it, and its JSON-RPC error object. -/
structure Response (F : Type) where
  status : ℕ
  session : Option PyStr
  rpc : Option (Value F)
  error : Option (Value F)

inductive Posted (F : Type)
  | response (resp : Response F)
  | transport (message : PyStr)
  | raised
  | aborted

/-- What the approval hook comes to. -/
inductive Verdict
  | isTrue
  | isNotTrue
  | raised
  | aborted

/-- `call` marks that the model calls a tool. -/
inductive Op (F : Type)
  | nextId
  | era (server : PyStr)
  | setEra (server : PyStr) (era : Era)
  | post (server : PyStr) (headers : List (PyStr × PyStr)) (body : Value F)
  | approve (server tool : PyStr) (arguments : Value F)
  | call (tool : PyStr) (arguments : List (PyStr × Value F))

abbrev Mcp (F : Type) : Signature where
  Op := Op F
  Res
    | .nextId => ℤ
    | .era _ => Option Era
    | .setEra .. => Unit
    | .post .. => Posted F
    | .approve .. => Verdict
    | .call .. => Unit

abbrev Client (F : Type) (α : Type) : Type := Task (Mcp F) Raised α

/-- Issues a statement of the client. -/
def ask (o : Op F) : Client F ((Mcp F).Res o) := Task.ask (S := Mcp F) o

variable (lib : Lib F) (config : McpConfig)

/-! ## Requests -/

/-- `_post`. -/
def post (server : PyStr) (headers : List (PyStr × PyStr)) (body : Value F) :
    Client F (Response F) :=
  match config.servers.find? (·.name = server) with
  | none => throw .other
  | some cfg => do
    let auth := if cfg.token.getD [] = [] then []
      else [(lit "Authorization", lit "Bearer " ++ cfg.token.getD [])]
    let posted ← ask (.post server (headers ++ auth) body)
    match posted with
    | .response resp => pure resp
    | .transport message => throw (.transport message)
    | .raised => throw .other
    | .aborted => throw .aborted

def MODERN_VERSION : PyStr := lit "2026-07-28"

def LEGACY_VERSIONS : List PyStr := [lit "2025-06-18"]

def clientInfo : Value F :=
  .obj [(lit "name", .str (lit "ragleap-integrations")), (lit "version", .str lib.version)]

/-- `_meta`. -/
def clientMeta : Value F :=
  .obj [(lit "io.modelcontextprotocol/protocolVersion", .str MODERN_VERSION),
    (lit "io.modelcontextprotocol/clientInfo", clientInfo lib),
    (lit "io.modelcontextprotocol/clientCapabilities", .obj [])]

/-- A JSON-RPC request. -/
def rpcBody (id : ℤ) (method : PyStr) (params : List (PyStr × Value F)) : Value F :=
  .obj [(lit "jsonrpc", .str (lit "2.0")), (lit "id", .atom (.int id)), (lit "method", .str method),
    (lit "params", .obj params)]

/-- The text of a number in a failure's detail. -/
def detail (label : String) (n : ℤ) : PyStr := lit label ++ intText n

/-- `_rpc_from_response` and `_unwrap`. -/
def unwrap (resp : Response F) : Client F (Value F) :=
  match resp.rpc with
  | none => throw (.failure .badResponse [])
  | some rpc =>
    match field rpc (lit "error") with
    | none | some (.atom .null) =>
      match field rpc (lit "result") with
      | some (.obj members) => pure (.obj members)
      | _ => throw (.failure .badResponse [])
    | some err =>
      match asInt? (field err (lit "code")) with
      | some code => throw (.failure .rpcError (detail "code " code))
      | none => throw (.failure .rpcError [])

/-- `_supported_versions`. -/
def supportedVersions (err : Value F) : Option (List PyStr) :=
  [field err (lit "data"), some err].findSome? fun holder =>
    match holder.bind fun v => field v (lit "supported") with
    | some (.arr items) => items.mapM fun v => asStr? (some v)
    | _ => none

def isSuccess (status : ℕ) : Bool := 200 ≤ status && status < 300

def UNSUPPORTED_VERSION : ℤ := -32022

def MODERN_ERRORS : List ℤ := [-32020, -32021, UNSUPPORTED_VERSION]

/-- What `_modern` makes of a reply. -/
def modernReply (resp : Response F) : Client F (Value F) :=
  if isSuccess resp.status then unwrap resp
  else if resp.status = 400 ∨ resp.status = 404 ∨ resp.status = 405 then
    match resp.error with
    | none => throw (.useLegacy none)
    | some err =>
      let code := (asInt? (field err (lit "code"))).getD 0
      if resp.status = 400 ∧ code ∉ MODERN_ERRORS then throw (.useLegacy (some code))
      else if code = UNSUPPORTED_VERSION then
        match supportedVersions err with
        | some supported => throw (.unsupportedVersion supported)
        | none => throw (.failure .noCommonVersion [])
      else throw (.failure .rpcError (detail "code " code))
  else throw (.failure .httpStatus (detail "HTTP " resp.status))

def baseHeaders : List (PyStr × PyStr) :=
  [(lit "Content-Type", lit "application/json"),
    (lit "Accept", lit "application/json, text/event-stream")]

/-- The headers of `_modern`; none where one has no UTF-8. -/
def modernHeaders (method : PyStr) (name : Option PyStr) (paramHeaders : List (PyStr × PyStr)) :
    Option (List (PyStr × PyStr)) := do
  let named ← name.toList.mapM fun n =>
    (encodeHeaderValue lib n).map fun v => (lit "Mcp-Name", v)
  let mirror ← paramHeaders.mapM fun (n, v) =>
    (encodeHeaderValue lib v).map fun v => (lit "Mcp-Param-" ++ n, v)
  some (baseHeaders ++ [(lit "MCP-Protocol-Version", MODERN_VERSION), (lit "Mcp-Method", method)] ++
    named ++ mirror)

/-- `_modern`. -/
def modern (server method : PyStr) (params : List (PyStr × Value F)) (name : Option PyStr)
    (paramHeaders : List (PyStr × PyStr)) : Client F (Value F) := do
  let id ← ask .nextId
  match modernHeaders lib method name paramHeaders with
  | none => throw .other
  | some headers => do
    let resp ← post config server headers
      (rpcBody id method (params ++ [(lit "_meta", clientMeta lib)]))
    modernReply resp

/-- The version and the session that an `initialize` reply negotiates. -/
def initialized (resp : Response F) : Client F (List (PyStr × PyStr)) :=
  if ¬ isSuccess resp.status then
    if (resp.status = 400 ∨ resp.status = 404 ∨ resp.status = 405) ∧ resp.error.isNone then
      throw (.failure .legacyTransport [])
    else throw (.failure .httpStatus (detail "HTTP " resp.status))
  else do
    let result ← unwrap resp
    match asStr? (field result (lit "protocolVersion")) with
    | some negotiated =>
      if negotiated ∈ LEGACY_VERSIONS then
        pure (baseHeaders ++ [(lit "MCP-Protocol-Version", negotiated)] ++
          (match resp.session with
          | none => []
          | some session => if session = [] then [] else [(lit "Mcp-Session-Id", session)]))
      else throw (.failure .noCommonVersion [])
    | none => throw (.failure .noCommonVersion [])

/-- `_legacy`. -/
def legacy (server method : PyStr) (params : List (PyStr × Value F)) : Client F (Value F) := do
  let initId ← ask .nextId
  let resp ← post config server baseHeaders (rpcBody initId (lit "initialize")
    [(lit "protocolVersion", .str (lit "2025-06-18")), (lit "capabilities", .obj []),
      (lit "clientInfo", clientInfo lib)])
  let headers ← initialized resp
  let note ← post config server headers (.obj [(lit "jsonrpc", .str (lit "2.0")),
    (lit "method", .str (lit "notifications/initialized"))])
  if ¬ isSuccess note.status then throw (.failure .httpStatus (detail "HTTP " note.status))
  else do
    let id ← ask .nextId
    let resp ← post config server headers (rpcBody id method params)
    if ¬ isSuccess resp.status then throw (.failure .httpStatus (detail "HTTP " resp.status))
    else unwrap resp

/-- The request to a server of an older protocol; a failure keeps the code of the first reply. -/
def requestLegacy (server method : PyStr) (params : List (PyStr × Value F)) (first : Option ℤ) :
    Client F (Value F) := do
  let result ← tryCatch (legacy lib config server method params) fun
    | .failure code d =>
      match first with
      | none => throw (.failure code d)
      | some n =>
        let extra := detail "first reply code " n
        throw (.failure code (if d = [] then extra else d ++ lit "; " ++ extra))
    | e => throw e
  ask (.setEra server .legacy)
  pure result

/-- `_request`. -/
def request (server method : PyStr) (params : List (PyStr × Value F)) (name : Option PyStr)
    (paramHeaders : List (PyStr × PyStr)) : Client F (Value F) := do
  let era ← ask (.era server)
  if era = some .legacy then requestLegacy lib config server method params none
  else
    tryCatch (do
      let result ← modern lib config server method params name paramHeaders
      ask (.setEra server .modern)
      pure result) fun
    | .useLegacy code => requestLegacy lib config server method params code
    | .unsupportedVersion supported =>
      if supported.any (· ∈ LEGACY_VERSIONS) then
        requestLegacy lib config server method params none
      else throw (.failure .noCommonVersion [])
    | e => throw e

/-! ## Discovery -/

def MAX_LIST_PAGES : ℕ := 10

/-- The items of a page that are wanted and not found yet. -/
def addFound (tools : List PyStr) (found : List (PyStr × Value F)) (listed : List (Value F)) :
    List (PyStr × Value F) :=
  listed.foldl (fun found item =>
    match asStr? (field item (lit "name")) with
    | some name => if name ∈ tools ∧ name ∉ found.map Prod.fst then found ++ [(name, item)] else found
    | none => found) found

/-- The pages of `tools/list` of one server. -/
def listPages (server : PyStr) (tools : List PyStr) :
    ℕ → PyStr → List (PyStr × Value F) → Client F (List (PyStr × Value F))
  | 0, _, found => pure found
  | pages + 1, cursor, found => do
    let result ← request lib config server (lit "tools/list")
      (if cursor = [] then [] else [(lit "cursor", .str cursor)]) none []
    match field result (lit "tools") with
    | some (.arr listed) =>
      let found := addFound tools found listed
      match asStr? (field result (lit "nextCursor")) with
      | none => pure found
      | some next =>
        if next = [] ∨ found.length = tools.length then pure found
        else listPages server tools pages next found
    | _ => throw (.failure .badResponse [])

/-- The spec of a listed tool, unless its schema is unusable. -/
def specOf (server tool : PyStr) (item : Value F) : Option (McpToolSpec F) :=
  let schema := (field item (lit "inputSchema")).getD
    (.obj [(lit "type", .str (lit "object")), (lit "properties", .obj [])])
  if asStr? (field schema (lit "type")) = some (lit "object")
      ∧ lib.dumpsLength schema ≤ config.maxSchemaChars ∧ (headerParams schema).isSome then
    some ⟨server, tool,
      ((asStr? (field item (lit "description"))).getD []).take config.maxDescriptionChars, schema,
      hintsFrom (field item (lit "annotations"))⟩
  else none

/-- `entry.split(".", 1)`. -/
def splitEntry (entry : PyStr) : PyStr × PyStr :=
  (entry.takeWhile (· ≠ ch '.'), (entry.dropWhile (· ≠ ch '.')).tail)

/-- The allowed tools by server. -/
def wanted (entries : List PyStr) : List (PyStr × List PyStr) :=
  let servers := (entries.map fun e => (splitEntry e).1).eraseDups
  servers.map fun server =>
    (server, (entries.filter fun e => (splitEntry e).1 = server).map fun e => (splitEntry e).2)

/-- The tools of the servers, one server after the other. -/
def discoverServers : List (PyStr × List PyStr) → Client F (List (McpToolSpec F))
  | [] => pure []
  | (server, tools) :: rest => do
    let found ← listPages lib config server tools MAX_LIST_PAGES [] []
    let specs := tools.filterMap fun tool =>
      (found.lookup tool).bind (specOf lib config server tool)
    let others ← discoverServers rest
    pure (specs ++ others)

/-- `_discover`. -/
def discover : Client F (List (McpToolSpec F)) := discoverServers lib config (wanted config.allowedTools)

/-! ## Calls -/

structure ToolResult where
  success : Bool
  error : PyStr
  result : PyStr

/-- The lines with `\n` between them. -/
def joinLines : List PyStr → PyStr
  | [] => []
  | [l] => l
  | l :: ls => l ++ ch '\n' :: joinLines ls

/-- `_to_tool_result`. -/
def toToolResult (result : Value F) (cap : ℕ) : Client F ToolResult :=
  if (field result (lit "inputRequests")).isSome then throw (.failure .inputRequired [])
  else
    match field result (lit "content") with
    | some (.arr content) =>
      let texts := content.filterMap fun item =>
        if asStr? (field item (lit "type")) = some (lit "text") then
          asStr? (field item (lit "text")) else none
      let omitted := content.length - texts.length
      let all := joinLines texts ++ (if omitted = 0 then []
        else lit "\n[" ++ intText omitted ++ lit " non-text content item(s) omitted]")
      let shown := if cap < all.length then all.take cap ++ lit "\n[truncated]" else all
      if asBool? (field result (lit "isError")) = some true then
        pure ⟨false, if shown = [] then lit "the tool reported an error" else shown, []⟩
      else pure ⟨true, [], shown⟩
    | _ => throw (.failure .badResponse [])

/-- `json.loads(json.dumps(value))`; the white space that `dumps` puts after commas and colons is
left out. -/
def reread (value : Value F) : Option (Value F) := parse lib.floats (print lib.floats value)

/-- `f"{server}.{tool}"`. -/
def toolKey (server tool : PyStr) : PyStr := server ++ ch '.' :: tool

/-- `_check_approval`. -/
def checkApproval (server tool : PyStr) (arguments : Value F) (requires : Option Bool) :
    Client F Unit :=
  if requires.getD true = false then pure ()
  else if config.policy.any McpPolicy.approve then
    match reread lib arguments with
    | none => throw (.failure .notApproved [])
    | some copy => do
      let answer ← ask (.approve server tool copy)
      match answer with
      | .isTrue => pure ()
      | .aborted => throw .aborted
      | _ => throw (.failure .notApproved [])
  else pure ()

/-- The parameters that headers mirror; there are none without a schema. -/
def mirrored (parameters : Value F) : Option (List (List PyStr × PyStr)) :=
  match parameters with
  | .obj _ => headerParams parameters
  | _ => some []

/-- The body of the `try` of `_call_tool`, for arguments that are a dictionary. -/
def callBody (server tool : PyStr) (arguments parameters : Value F) (requires : Option Bool) :
    Client F ToolResult :=
  if toolKey server tool ∉ config.allowedTools then throw (.failure .notAllowlisted [])
  else
    match (mirrored parameters).bind (headerValues arguments) with
    | none => throw (.failure .badArguments [])
    | some paramHeaders => do
      checkApproval lib config server tool arguments requires
      let result ← request lib config server (lit "tools/call")
        [(lit "name", .str tool), (lit "arguments", arguments)] (some tool) paramHeaders
      toToolResult result config.maxResultChars

/-- `call_tool`. -/
def callTool (server tool : PyStr) (arguments parameters : Value F) (requires : Option Bool) :
    Client F ToolResult :=
  tryCatch (callBody lib config server tool arguments parameters requires) fun
    | .failure code d => pure ⟨false, message code d, []⟩
    | .transport m => pure ⟨false, lit "MCP server request failed (" ++ m ++ lit ")", []⟩
    | .aborted => throw .aborted
    | _ => pure ⟨false, lit "MCP call failed", []⟩

/-! ## Tools -/

def MAX_TOOL_NAME_CHARS : ℕ := 64

/-- `_tool_name`. -/
def toolName (server tool : PyStr) : PyStr :=
  ((server ++ lit "__" ++ tool).map fun c =>
    if (ch '0' ≤ c ∧ c ≤ ch '9') ∨ (ch 'A' ≤ c ∧ c ≤ ch 'Z')
      ∨ (ch 'a' ≤ c ∧ c ≤ ch 'z') ∨ c = ch '_' ∨ c = ch '-' then c
    else ch '_').take MAX_TOOL_NAME_CHARS

/-- A tool: the name under which the model sees it, and what its handler closes over. -/
structure Tool (F : Type) where
  name : PyStr
  spec : McpToolSpec F
  requires : Bool

/-- The owner's setting for a server. -/
def trusts (server : PyStr) : Option Bool :=
  (config.servers.find? (·.name = server)).map McpServerConfig.trustAnnotations

/-- The tools of the specs; none is an exception. -/
def toolsOf : List PyStr → List (McpToolSpec F) → Option (List (Tool F))
  | _, [] => some []
  | names, spec :: specs =>
    let name := toolName spec.server spec.name
    if name ∈ names then none
    else
      match trusts config spec.server with
      | none => none
      | some trust =>
        let flag := requiresApproval (toolKey spec.server spec.name) spec.annotations trust
          config.policy
        (toolsOf (name :: names) specs).map (⟨name, spec, flag⟩ :: ·)

/-- The checks of specs that the owner supplies. -/
def checkSpecs (specs : List (McpToolSpec F)) : Bool :=
  specs.all fun spec =>
    toolKey spec.server spec.name ∈ config.allowedTools
      && asStr? (field spec.parameters (lit "type")) = some (lit "object")
      && spec.annotations.all (fun a => a.1 ∈ HINT_KEYS) && (headerParams spec.parameters).isSome

/-- `make_mcp_tools`. -/
def makeMcpTools (specs : Option (List (McpToolSpec F))) : Client F (List (Tool F)) :=
  match specs with
  | some specs =>
    if checkSpecs config specs then
      match toolsOf config [] specs with
      | some tools => pure tools
      | none => throw .other
    else throw .other
  | none => do
    let specs ← discover lib config
    match toolsOf config [] specs with
    | some tools => pure tools
    | none => throw .other

/-- The model calls tools by their names, whatever the calls before came to. -/
def useTools (tools : List (Tool F)) : List (PyStr × List (PyStr × Value F)) → Client F Unit
  | [] => pure ()
  | (name, arguments) :: calls => do
    ask (.call name arguments)
    match tools.find? (·.name = name) with
    | none => useTools tools calls
    | some tool => do
      let _ ← tryCatch (callTool lib config tool.spec.server tool.spec.name (.obj arguments)
        tool.spec.parameters (some tool.requires)) fun _ => pure ⟨false, [], []⟩
      useTools tools calls

/-- The tools are made, with the given specs or by discovery, and the model calls them. -/
def session (specs : Option (List (McpToolSpec F)))
    (calls : List (PyStr × List (PyStr × Value F))) : Client F Unit := do
  let tools ← makeMcpTools lib config specs
  useTools lib config tools calls

end RagLeap.Integrations
