import RagLeap.Foundations.Json
import RagLeap.Foundations.Prog

/-!
# Calling an MCP tool

`call_tool` of `core/mcp_client.py`: the target must be on the owner's list, then the session is
opened and the tool called by JSON-RPC requests. Each way it returns is a constructor of `Result`,
with the text handed to the caller as `Result.render`.
-/

namespace RagLeap.McpClient

def MAX_RESULT_CHARS : ℕ := 2000

def PROTOCOL_VERSION : Str := "2025-06-18".toList

/-- What `call_tool` came to. -/
inductive Result
  | notAllowlisted (target : Str)
  | serverNotAllowed (target : Str)
  | badArguments (target : Str)
  | answered (target : Str) (isError : Bool) (parts : List Str)
  | failed (target : Str)
  deriving DecidableEq

/-- The line that heads a tool's answer. -/
def head (target : Str) (isError : Bool) : Str :=
  "MCP ".toList ++ target ++ ": ".toList ++ (if isError then "error".toList else "ok".toList)

/-- The text `call_tool` returns. -/
def Result.render : Result → Str
  | notAllowlisted target => "MCP ".toList ++ target ++ ": refused (not allowlisted)".toList
  | serverNotAllowed target =>
    "MCP ".toList ++ target ++ ": refused (server URL not allowed)".toList
  | badArguments target =>
    "MCP ".toList ++ target ++ ": refused (arguments must be a JSON object)".toList
  | answered target isError parts =>
    (head target isError ++ '\n' :: List.intercalate ['\n'] parts).take MAX_RESULT_CHARS
  | failed target => "MCP ".toList ++ target ++ ": failed; see server logs.".toList

inductive Op
  | allowedTargets
  | serverUrl (server : Str)
  | isPublicHttpsUrl (url : Str)
  | token (server : Str)
  | initializeRequest (url token : Str)
  | initialized (url token session version : Str)
  | toolsCall (url token session version tool : Str) (args : Json)

/-- `none` in an answer: the step raises. `initializeRequest` answers with the session id, empty when
there is none, and the negotiated protocol version. -/
abbrev Statements : Signature where
  Op := Op
  Res
    | .allowedTargets => List Str
    | .serverUrl _ => Option Str
    | .isPublicHttpsUrl _ => Bool
    | .token _ => Str
    | .initializeRequest .. => Option (Str × Option Str)
    | .initialized .. => Option Unit
    | .toolsCall .. => Option (Bool × List Str)

variable (loads : Str → Option Json)

/-- The arguments: an empty content stands for no arguments. -/
def parseArgs (content : Str) : Option Json :=
  if Str.strip content = [] then some (.obj []) else loads content

/-- A step that may raise, inside the handler of `call_tool`. -/
def orFailed {α : Type} (target : Str) (r : Option α) (f : α → Prog Statements Result) :
    Prog Statements Result :=
  match r with
  | none => .ret (.failed target)
  | some a => f a

/-- The three requests of a call, once its target, server and arguments passed the checks. -/
def session (target server tool url : Str) (args : Json) : Prog Statements Result :=
  .op (.token server) fun token =>
    .op (.initializeRequest url token) fun r => orFailed target r fun (id, version) =>
      .op (.initialized url token id (version.getD PROTOCOL_VERSION)) fun r =>
        orFailed target r fun _ =>
          .op (.toolsCall url token id (version.getD PROTOCOL_VERSION) tool args) fun r =>
            orFailed target r fun (isError, parts) => .ret (.answered target isError parts)

def callTool (target content : Str) : Prog Statements Result :=
  let target := Str.strip target
  .op .allowedTargets fun allowed =>
    if target ∉ allowed then .ret (.notAllowlisted target)
    else
      let server := target.takeWhile (· ≠ '.')
      let tool := (target.dropWhile (· ≠ '.')).drop 1
      .op (.serverUrl server) fun r => orFailed target r fun url =>
        .op (.isPublicHttpsUrl url) fun isPublic =>
          if ¬ isPublic then .ret (.serverNotAllowed target)
          else
            orFailed target (parseArgs loads content) fun
              | .obj members => session target server tool url (.obj members)
              | _ => .ret (.badArguments target)

/-! ## What an answered call shows -/

/-- Typestate of a call: whether the target was found on the owner's list. -/
def listed (target : Str) : Protocol Statements where
  Phase := Bool
  permits
    | onList, .toolsCall .. => onList = true
    | _, _ => True
  next
    | _, .allowedTargets, allowed => some (decide (target ∈ allowed))
    | b, _, _ => some b

theorem follows_orFailed {α : Type} {P : Protocol Statements} {φ : P.Phase} {target : Str}
    {Q : P.Phase → Result → Prop} {r : Option α} {f : α → Prog Statements Result}
    (hfailed : Q φ (.failed target)) (hf : ∀ a, (f a).Follows P Q φ) :
    (orFailed target r f).Follows P Q φ := by
  cases r with
  | none => exact hfailed
  | some a => exact hf a

theorem session_listed (target server tool url : Str) (args : Json) :
    (session target server tool url args).Follows (listed target)
      (fun onList r => ∀ t isError parts, r = .answered t isError parts →
        onList = true ∧ t = target) true := by
  refine ⟨trivial, fun token b hb => ?_⟩
  cases hb
  refine ⟨trivial, fun r b hb => ?_⟩
  cases hb
  refine follows_orFailed (fun _ _ _ h => by cases h) fun _ => ⟨trivial, fun r b hb => ?_⟩
  cases hb
  refine follows_orFailed (fun _ _ _ h => by cases h) fun _ => ⟨rfl, fun r b hb => ?_⟩
  cases hb
  refine follows_orFailed (fun _ _ _ h => by cases h) fun _ => ?_
  rintro _ _ _ ⟨⟩
  exact ⟨rfl, rfl⟩

/-- A tool is called, and an answer reported, only under a target of the owner's list. -/
theorem callTool_listed (target content : Str) :
    (callTool loads target content).Follows (listed (Str.strip target))
      (fun onList r => ∀ t isError parts, r = .answered t isError parts →
        onList = true ∧ t = Str.strip target) false := by
  refine ⟨trivial, fun allowed b hb => ?_⟩
  cases hb
  dsimp only
  split_ifs with hmem
  · rw [decide_eq_true hmem]
    refine ⟨trivial, fun r b hb => ?_⟩
    cases hb
    refine follows_orFailed (fun _ _ _ h => by cases h) fun url =>
      ⟨trivial, fun isPublic b hb => ?_⟩
    cases hb
    dsimp only
    split_ifs
    · refine follows_orFailed (fun _ _ _ h => by cases h) fun args => ?_
      split
      · exact session_listed _ _ _ _ _
      · exact fun _ _ _ h => by cases h
    · exact fun _ _ _ h => by cases h
  · exact fun _ _ _ h => by cases h

/-- The answer of a tool starts with the line naming its target, cut where the whole text is. -/
theorem Result.firstLine_render_answered (target : Str) (isError : Bool) (parts : List Str) :
    Str.firstLine (Result.answered target isError parts).render =
      Str.firstLine ((head target isError).take MAX_RESULT_CHARS) :=
  Str.firstLine_take_append _ _ _

end RagLeap.McpClient
