import RagLeap.Agents.Agent
import RagLeap.Foundations.JsonDumps
import RagLeap.Tools.Schema

/-!
# Replies in native mode

`_reply` of `ragleap_agents/providers.py` turns a provider's response into the text that the agent
reads: the first tool call becomes a JSON action, and a text without a call an action `done` that
carries it. `parse_plan` of `agent.py` looks for the action in the text, from the first opening
brace to the last closing one, and `_finish` makes the answer of a run out of it.

Written and read, a call keeps its tool and arguments and a text comes back whole
(`plan_of_reply`). A text in which `parse_plan` finds an object is handed on as it stands, and the
object is then the plan (`reply_eq_content`). Strings are those of the interpreter, since a
response can hold any; `checkReply_doneAction` joins what is read here to the loop of `Agent`.
-/

namespace RagLeap.Agents.NativeReply

open JsonText
open Tools (lit)

variable {F : Type}

/-! ## Strings -/

/-- White space, as `str.isspace` has it. -/
def isSpace (c : CodePoint) : Bool := Str.isSpace (Char.ofNat c.val)

/-- `s.strip()`. -/
def strip (s : PyStr) : PyStr := ((s.dropWhile isSpace).reverse.dropWhile isSpace).reverse

/-- `s[:n]`. -/
def upTo (s : PyStr) (n : ℤ) : PyStr :=
  if 0 ≤ n then s.take n.toNat else s.take (s.length - n.natAbs)

/-! ## Plans -/

/-- The members of an object. -/
abbrev Members (F : Type) : Type := List (PyStr × Value F)

variable (fl : Floats F)

/-- `parse_plan`. -/
def parsePlan (s : PyStr) : Option (Members F) :=
  if braced s = [] then none
  else
    match parse fl (braced s) with
    | some (.obj plan) => some plan
    | _ => none

/-! ## Responses -/

/-- `ProviderError`, as `_reply` raises it. -/
inductive ProviderError
  | unexpectedShape
  deriving DecidableEq

def ProviderError.text : ProviderError → PyStr
  | unexpectedShape => lit "unexpected response shape"

/-- `data["choices"][0]["message"]`, which has to be a dictionary. -/
def message : Value F → Except ProviderError (Members F)
  | .obj data =>
    match data.lookup (lit "choices") with
    | some (.arr (.obj choice :: _)) =>
      match choice.lookup (lit "message") with
      | some (.obj msg) => .ok msg
      | _ => .error .unexpectedShape
    | _ => .error .unexpectedShape
  | _ => .error .unexpectedShape

def content (msg : Members F) : PyStr :=
  match msg.lookup (lit "content") with
  | some (.str s) => s
  | _ => []

/-- The tool calls, where they are a list. -/
def calls (msg : Members F) : List (Value F) :=
  match msg.lookup (lit "tool_calls") with
  | some (.arr calls) => calls
  | _ => []

/-- `call.get("function")`, where both are dictionaries. -/
def function : Value F → Members F
  | .obj call =>
    match call.lookup (lit "function") with
    | some (.obj fn) => fn
    | _ => []
  | _ => []

/-- The arguments as they arrive; none where `json.loads` raises. -/
def arguments (raw : Option (Value F)) : Option (Value F) :=
  match raw with
  | none | some (.atom .null) => some (.obj [])
  | some (.str s) => if s = [] then some (.obj []) else parse fl s
  | some v => some v

/-- `{"tool": name, "arguments": args}`. -/
def callAction (name : PyStr) (args : Members F) : Members F :=
  [(lit "tool", .str name), (lit "arguments", .obj args)]

/-- `{"tool": "done", "answer": text}`. -/
def doneAction (text : PyStr) : Members F :=
  [(lit "tool", .str (lit "done")), (lit "answer", .str text)]

/-- What becomes of a tool call. -/
def callReply (fn : Members F) : PyStr :=
  match fn.lookup (lit "name") with
  | some (.str name) =>
    if name = [] then []
    else
      match arguments fl (fn.lookup (lit "arguments")) with
      | some (.obj args) => dumps fl (.obj (callAction name args))
      | _ => []
  | _ => []

/-- What becomes of a message. -/
def messageReply (native : Bool) (msg : Members F) : PyStr :=
  match native, calls msg with
  | true, call :: _ => callReply fl (function call)
  | _, _ =>
    if native = true ∧ strip (content msg) ≠ [] ∧ parsePlan fl (content msg) = none then
      dumps fl (.obj (doneAction (content msg)))
    else content msg

/-- `_reply`. -/
def reply (native : Bool) (data : Value F) : Except ProviderError PyStr :=
  (message data).map (messageReply fl native)

/-! ## What the agent makes of it -/

/-- What the loop reads in a reply, before it looks the tool up. -/
inductive Reading (F : Type)
  | done (answer : PyStr)
  | rejected (reason : PyStr)
  | action (name : PyStr) (args : Value F)

/-- `_DONE`. -/
def DONE : List PyStr := [[], lit "done", lit "none"]

/-- `str(value)`; `shown` is it for what is no string. -/
def asText (shown : Value F → PyStr) : Value F → PyStr
  | .str s => s
  | v => shown v

/-- The part of `_drive` that reads a reply. -/
def readReply (shown : Value F → PyStr) (s : PyStr) : Reading F :=
  match parsePlan fl s with
  | none => .rejected (lit "unparseable_reply")
  | some plan =>
    match plan.lookup (lit "tool") with
    | none => .rejected (lit "invalid_plan")
    | some tool =>
      let name := strip (asText shown tool)
      if name ∈ DONE then
        .done (match plan.lookup (lit "answer") with | some (.str answer) => answer | _ => [])
      else
        .action name (match plan.lookup (lit "arguments") with
          | none | some (.atom .null) => .obj []
          | some args => args)

/-- What `_finish` has of a run that ends as done: the number of its steps, whether they are to be
summed up, what the model says when it is asked to (none where the call raises), what `_fallback`
says of them, and `text_cap`. -/
structure Ending where
  steps : ℕ
  summarize : Bool
  summary : Option PyStr
  account : PyStr
  textCap : ℤ

/-- The answer of the run. -/
def Ending.answer (e : Ending) (planAnswer : PyStr) : PyStr :=
  let summary :=
    if e.steps ≠ 0 ∧ e.summarize = true then (e.summary.map strip).getD []
    else if strip planAnswer ≠ [] ∧ e.steps = 0 then strip planAnswer
    else []
  upTo (if summary ≠ [] then summary else if e.steps ≠ 0 then e.account else []) e.textCap

/-! ## Plans read back -/

@[simp] theorem join_lit (s : String) : PyStr.join (lit s) = lit s := PyStr.join_text _

theorem dumps_obj_ne_nil (ms : Members F) : dumps fl (.obj ms) ≠ [] := by
  rw [dumps, List.cons_append]
  exact List.cons_ne_nil _ _

theorem parsePlan_of_braced {s : PyStr} {ms : Members F} (h : braced s = dumps fl (.obj ms)) :
    parsePlan fl s = some (rereadMembers ms) := by
  rw [parsePlan, h, if_neg (dumps_obj_ne_nil fl ms), parse_dumps, Value.reread_obj]

/-- What is printed as an object is found again, whatever its strings hold. -/
theorem parsePlan_dumps (ms : Members F) :
    parsePlan fl (dumps fl (.obj ms)) = some (rereadMembers ms) :=
  parsePlan_of_braced fl (braced_dumps_obj fl ms)

/-- An object is found as it was printed where none of its strings has the two halves of a
character side by side. -/
theorem parsePlan_dumps_eq_self {ms : Members F} (hjoined : (Value.obj ms).Joined)
    (hdistinct : (Value.obj ms).Distinct) : parsePlan fl (dumps fl (.obj ms)) = some ms := by
  have hself := Value.reread_eq_self hjoined hdistinct
  rw [Value.reread_obj, Value.obj.injEq] at hself
  rw [parsePlan_dumps, hself]

theorem rereadMembers_pair {k k' : String} (hne : k ≠ k') (v v' : Value F) :
    rereadMembers [(lit k, v), (lit k', v')] = [(lit k, v.reread), (lit k', v'.reread)] := by
  rw [rereadMembers, List.map_cons, List.map_singleton, join_lit, join_lit]
  refine Value.dictOf_eq_self ?_
  simpa using hne

theorem rereadMembers_callAction (name : PyStr) (args : Members F) :
    rereadMembers (callAction name args) = callAction (PyStr.join name) (rereadMembers args) := by
  rw [callAction, rereadMembers_pair (by decide), Value.reread_str, Value.reread_obj, callAction]

theorem rereadMembers_doneAction (text : PyStr) :
    rereadMembers (doneAction text : Members F) = doneAction (PyStr.join text) := by
  rw [doneAction, rereadMembers_pair (by decide), Value.reread_str, Value.reread_str, join_lit,
    doneAction]

/-- An action `done` ends the run with its text. -/
theorem readReply_doneAction (shown : Value F → PyStr) {s text : PyStr}
    (h : parsePlan fl s = some (doneAction text)) : readReply fl shown s = .done text := by
  have hdone : strip (lit "done") ∈ DONE := by decide
  rw [readReply, h]
  simp only [doneAction, List.lookup_cons, Tools.lit_beq, String.reduceBEq, asText, BEq.rfl]
  rw [if_pos hdone]

/-! ## Tool calls -/

/-- How a provider writes arguments: not at all, as `null` or an empty text, as the text of an
object, or as an object. -/
inductive Arguments : Option (Value F) → Members F → Prop
  | missing : Arguments none []
  | null : Arguments (some (.atom .null)) []
  | empty : Arguments (some (.str [])) []
  | text {s : PyStr} {args : Members F} (h : parse fl s = some (.obj args)) :
      Arguments (some (.str s)) args
  | object (args : Members F) : Arguments (some (.obj args)) args

/-- The entry calls the tool with the arguments. -/
structure Calls (call : Value F) (name : PyStr) (args : Members F) : Prop where
  named : (function call).lookup (lit "name") = some (.str name)
  nonempty : name ≠ []
  arguments : Arguments fl ((function call).lookup (lit "arguments")) args

theorem arguments_eq_obj_iff {raw : Option (Value F)} {args : Members F} :
    arguments fl raw = some (.obj args) ↔ Arguments fl raw args := by
  constructor
  · intro h
    unfold NativeReply.arguments at h
    split at h
    · cases h
      exact .missing
    · cases h
      exact .null
    · split_ifs at h with hs
      · cases h
        exact hs ▸ .empty
      · exact .text h
    · cases h
      exact .object args
  · intro h
    cases h with
    | missing => rfl
    | null => rfl
    | empty => rfl
    | object => rfl
    | @text s args h =>
      have hs : s ≠ [] := by
        rintro rfl
        exact nomatch (parse_nil fl).symm.trans h
      rw [NativeReply.arguments, if_neg hs, h]

theorem callReply_of_calls {call : Value F} {name : PyStr} {args : Members F}
    (h : Calls fl call name args) :
    callReply fl (function call) = dumps fl (.obj (callAction name args)) := by
  rw [callReply, h.named]
  dsimp only
  rw [if_neg h.nonempty, (arguments_eq_obj_iff fl).2 h.arguments]

theorem callReply_eq_nil {call : Value F} (h : ∀ name args, ¬ Calls fl call name args) :
    callReply fl (function call) = [] := by
  unfold callReply
  split
  case h_2 => rfl
  case h_1 name hname =>
    split_ifs with hne
    · rfl
    split
    case h_2 => rfl
    case h_1 args hargs => exact (h name args ⟨hname, hne, (arguments_eq_obj_iff fl).1 hargs⟩).elim

/-! ## Texts -/

theorem messageReply_of_text (native : Bool) {msg : Members F} (hcalls : calls msg = []) :
    messageReply fl native msg =
      if native = true ∧ strip (content msg) ≠ [] ∧ parsePlan fl (content msg) = none then
        dumps fl (.obj (doneAction (content msg)))
      else content msg := by
  unfold messageReply
  rw [hcalls]
  cases native <;> rfl

theorem messageReply_of_call {msg : Members F} {call : Value F} {rest : List (Value F)}
    (hcalls : calls msg = call :: rest) :
    messageReply fl true msg = callReply fl (function call) := by
  unfold messageReply
  rw [hcalls]

/-- A text in which no object is found becomes an action `done`. -/
theorem messageReply_eq_done {msg : Members F} (hcalls : calls msg = [])
    (hblank : strip (content msg) ≠ []) (h : parsePlan fl (content msg) = none) :
    messageReply fl true msg = dumps fl (.obj (doneAction (content msg))) := by
  rw [messageReply_of_text fl true hcalls, if_pos ⟨rfl, hblank, h⟩]

/-- **A text in which an object is found is handed on as it stands**, and so is any text in the
other mode. -/
theorem messageReply_eq_content {native : Bool} {msg : Members F} (hcalls : calls msg = [])
    (h : native = false ∨ (parsePlan fl (content msg)).isSome = true) :
    messageReply fl native msg = content msg := by
  rw [messageReply_of_text fl native hcalls]
  refine if_neg fun hdone => ?_
  rcases h with rfl | h
  · exact Bool.false_ne_true hdone.1
  · rw [hdone.2.2] at h
    exact Bool.false_ne_true h

/-- A run that has taken no step ends with the text of its plan, stripped and cut. -/
theorem Ending.answer_of_no_steps {e : Ending} (h : e.steps = 0) (planAnswer : PyStr) :
    e.answer planAnswer = upTo (strip planAnswer) e.textCap := by
  rw [answer]
  simp only [h, ne_eq, not_true_eq_false, false_and, if_false, and_true]
  congr 1
  split_ifs with hne <;> simp_all

/-- A run that has taken steps is answered from these. -/
theorem Ending.answer_of_steps {e : Ending} (h : e.steps ≠ 0) (planAnswer : PyStr) :
    e.answer planAnswer = e.answer [] := by
  simp only [answer, h, and_false, if_false]

/-! ## The loop of the agent -/

/-- The part of a text that `parsePlan` of the loop reads. -/
theorem braced_text (s : Str) : braced (text s) =
    text ((s.dropWhile (· ≠ '\x7b')).reverse.dropWhile (· ≠ '\x7d')).reverse := by
  have hne (d : Char) :
      (fun c : CodePoint => decide (c ≠ ch d)) ∘ ch = fun c => decide (c ≠ d) := by
    funext c
    simp only [Function.comp_apply, ne_eq, ch_injective.eq_iff]
  rw [braced, text, text, List.dropWhile_map, hne, ← List.map_reverse, List.dropWhile_map, hne,
    List.map_reverse]

/-- `json.loads` of the loop reads the objects of plain strings. -/
def ReadsTexts (env : Env) : Prop :=
  ∀ (s : Str) (ms : List (Str × Str)),
    parse fl (text s) = some (.obj (ms.map fun m => (text m.1, .str (text m.2)))) →
      env.loads s = some (.obj (ms.map fun m => (m.1, .str m.2)))

/-- **The loop ends the run** on an action `done`, with its answer. -/
theorem takeReply_doneAction (a : Agent) {env : Env} (henv : ReadsTexts fl env) {s answer : Str}
    (hs : text s = dumps fl (.obj (doneAction (text answer))))
    (rejected : Str → Str → Prog Acts Proposal) :
    a.takeReply env (.text s) rejected = pure (.ends .done "done".toList true answer) := by
  have hwhole : ((s.dropWhile (· ≠ '\x7b')).reverse.dropWhile (· ≠ '\x7d')).reverse = s := by
    apply text_injective
    rw [← braced_text, hs, braced_dumps_obj]
  have hne : s ≠ [] := by
    rintro rfl
    exact dumps_obj_ne_nil fl _ hs.symm
  have hloads := henv s [("tool".toList, "done".toList), ("answer".toList, answer)] <| by
    rw [hs, parse_dumps, Value.reread_obj, rereadMembers_doneAction, PyStr.join_text]
    rfl
  have hplan : Agents.parsePlan env s =
      some [("tool".toList, .str "done".toList), ("answer".toList, .str answer)] := by
    rw [Agents.parsePlan, hwhole, if_neg hne, hloads]
    rfl
  have hcheck : a.checkReply env s = .done answer := by
    have hdone : Str.strip "done".toList ∈ [[], "done".toList, "none".toList] := by decide
    rw [Agent.checkReply, hplan]
    exact if_pos hdone
  rw [Agent.takeReply, hcheck]

/-! ## The plan of a reply -/

/-- **What the agent makes of a response.** A text without a tool call in which `parse_plan` finds
no object ends the run as done with that text, stripped and cut, unless the run has taken steps to
be answered from; a text in which it finds one is handed on. A tool call gives a plan with its tool
and arguments, and one that cannot be read an empty reply, in which there is no plan. The two
halves of a character that stand side by side in a string are put together. -/
theorem plan_of_reply (shown : Value F → PyStr) {data : Value F} {msg : Members F}
    (hmsg : message data = .ok msg) :
    ∃ r, reply fl true data = .ok r ∧
      (calls msg = [] → strip (content msg) ≠ [] → parsePlan fl (content msg) = none →
        parsePlan fl r = some (doneAction (PyStr.join (content msg))) ∧
        readReply fl shown r = .done (PyStr.join (content msg)) ∧
        ∀ e : Ending, e.answer (PyStr.join (content msg)) =
          if e.steps = 0 then upTo (strip (PyStr.join (content msg))) e.textCap
          else e.answer []) ∧
      (calls msg = [] → (parsePlan fl (content msg)).isSome = true → r = content msg) ∧
      ∀ call rest, calls msg = call :: rest →
        (∀ name args, Calls fl call name args →
          parsePlan fl r = some (callAction (PyStr.join name) (rereadMembers args))) ∧
        ((∀ name args, ¬ Calls fl call name args) → r = [] ∧ parsePlan fl r = none) := by
  refine ⟨messageReply fl true msg, by rw [reply, hmsg]; rfl, fun hcalls hblank hnone => ?_,
    fun hcalls hsome => messageReply_eq_content fl hcalls (.inr hsome), fun call rest hcalls => ?_⟩
  · have hplan : parsePlan fl (messageReply fl true msg) =
        some (doneAction (PyStr.join (content msg))) := by
      rw [messageReply_eq_done fl hcalls hblank hnone, parsePlan_dumps, rereadMembers_doneAction]
    refine ⟨hplan, readReply_doneAction fl shown hplan, fun e => ?_⟩
    split_ifs with hsteps
    · exact Ending.answer_of_no_steps hsteps _
    · exact Ending.answer_of_steps hsteps _
  · rw [messageReply_of_call fl hcalls]
    refine ⟨fun name args h => ?_, fun h => ?_⟩
    · rw [callReply_of_calls fl h, parsePlan_dumps, rereadMembers_callAction]
    · rw [callReply_eq_nil fl h]
      exact ⟨rfl, rfl⟩

namespace Sample

/-- No float is seen. -/
def floats : Floats Empty := noFloats

/-- A response with the message. -/
def response (msg : Members Empty) : Value Empty :=
  .obj [(lit "choices", .arr [.obj [(lit "message", .obj msg)]])]

theorem message_response (msg : Members Empty) : message (response msg) = .ok msg := by
  simp only [message, response, List.lookup_cons, BEq.rfl]

/-- A message without a tool call. -/
def saying (text : PyStr) : Members Empty := [(lit "content", .str text)]

/-- A message that calls a tool with no arguments. -/
def calling (name : PyStr) : Members Empty :=
  [(lit "content", .atom .null),
    (lit "tool_calls", .arr [.obj [(lit "function", .obj [(lit "name", .str name)])]])]

/-- A text ends the run as done, and a call has its tool in the plan. -/
theorem said_and_called :
    (∃ r, reply floats true (response (saying (lit "It is 42."))) = .ok r ∧
      readReply floats (fun _ => []) r = .done (lit "It is 42.")) ∧
      ∃ r, reply floats true (response (calling (lit "calc"))) = .ok r ∧
        parsePlan floats r = some (callAction (lit "calc") []) := by
  obtain ⟨r, hr, hsaid, -⟩ :=
    plan_of_reply floats (fun _ => []) (message_response (saying (lit "It is 42.")))
  obtain ⟨r', hr', -, -, hcalled⟩ :=
    plan_of_reply floats (fun _ => []) (message_response (calling (lit "calc")))
  refine ⟨⟨r, hr, ?_⟩, r', hr', ?_⟩
  · have hread := (hsaid rfl (by decide) (by decide)).2.1
    exact hread
  · exact (hcalled _ _ rfl).1 (lit "calc") [] ⟨rfl, by decide, .missing⟩

/-- A text with an object in it: the agent finds no tool in the object and takes the text for an
invalid plan. -/
theorem example_in_text :
    let text := lit "Set \x7b\"mode\": \"fast\"\x7d."
    message (response (saying text)) = .ok (saying text) ∧ calls (saying text) = [] ∧
      content (saying text) = text ∧ strip text ≠ [] ∧
        ∃ r, reply floats true (response (saying text)) = .ok r ∧
          readReply floats (fun _ => []) r = .rejected (lit "invalid_plan") := by
  intro text
  have hplan : parsePlan floats text = some (rereadMembers [(lit "mode", .str (lit "fast"))]) :=
    parsePlan_of_braced floats (by decide)
  have hreply : messageReply floats true (saying text) = text :=
    messageReply_eq_content floats rfl (.inr (congrArg Option.isSome hplan))
  refine ⟨message_response _, rfl, rfl, by decide, text, ?_, ?_⟩
  · rw [reply, message_response]
    exact congrArg Except.ok hreply
  · rw [readReply, hplan]
    rfl

end Sample

end RagLeap.Agents.NativeReply
