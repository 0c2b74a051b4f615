import RagLeap.Tools.Schema

/-!
# Tools made of functions

`@tool` of `decorator.py` makes a tool of a function with annotated parameters, and `Toolkit.call`
of `toolkit.py` calls a tool with arguments from a model. Both check the arguments against the
schema of the function before `func(**args)`.

`call_sound_iff`: of a function with a parameter, the arguments that get through bind to its
parameters and are what their annotations admit; a function without parameters has a schema without
properties, and the check lets every argument through.
-/

namespace RagLeap.Tools

open JsonText

variable {F R : Type}

/-! ## Tools -/

structure ToolResult (R : Type) where
  success : Bool
  result : Option R
  error : Option PyStr
  deriving DecidableEq

def fail (message : PyStr) : ToolResult R := ⟨false, none, some message⟩

/-- How a call ends: with a result or another value, or with an exception, which has a type and a
text. -/
inductive Ran (R : Type)
  | result (out : ToolResult R)
  | value (out : R)
  | toolError (text : PyStr)
  | exception (type text : PyStr)
  deriving DecidableEq

/-- A function; `isPlain` says that it is callable and no class, and `summary` and `paramDocs` are
what `parse_docstring` finds. The body gets the arguments by their names, and `bindError` is what
the interpreter says of arguments that do not bind. -/
structure Func (F R : Type) where
  signature : Signature F
  name : PyStr
  isPlain : Bool
  isAsync : Bool
  isGenerator : Bool
  summary : PyStr
  paramDocs : List (PyStr × PyStr)
  body : List (PyStr × Value F) → Ran R
  bindError : List (PyStr × Value F) → PyStr

instance (sig : Signature F) (args : List (PyStr × Value F)) : Decidable (Binds sig args) :=
  inferInstanceAs (Decidable (_ ∧ _))

/-- `func(**args)`. -/
def Func.call (fn : Func F R) (args : List (PyStr × Value F)) : Ran R :=
  if Binds fn.signature args then fn.body args
  else .exception (lit "TypeError") (fn.bindError args)

/-- A call of a handler, with the arguments of `func(**args)` if it came to that. -/
structure Handled (F R : Type) where
  ran : Ran R
  called : Option (List (PyStr × Value F))

structure Tool (F R : Type) where
  name : PyStr
  description : PyStr
  parameters : Value F
  handler : List (PyStr × Value F) → Handled F R

variable (py : Python F) (repr : Annotation F → PyStr)

def MAX_DESCRIPTION_CHARS : ℕ := 2000

/-- The handler of `_make_handler`. -/
def makeHandler (fn : Func F R) (toolName : PyStr) (parameters : Value F) (exposeErrors : Bool)
    (kwargs : List (PyStr × Value F)) : Handled F R :=
  let args := dropNullOptionals parameters kwargs
  match validateArguments py parameters (.obj args) with
  | some problem => ⟨.result (fail (lit "invalid arguments: " ++ problem)), none⟩
  | none =>
    let out := match fn.call args with
      | .toolError text =>
        if safeText py text = [] then fail (toolName ++ lit " failed") else fail (safeText py text)
      | .exception type text =>
        fail (toolName ++ lit " failed (" ++ type ++ lit ")" ++
          if exposeErrors ∧ text ≠ [] then lit ": " ++ safeText py text else [])
      | .result out => out
      | .value out => ⟨true, some out, none⟩
    ⟨.result out, some args⟩

/-- The characters of `NAME_RE`. -/
def isNameChar (c : CodePoint) : Bool :=
  (ch 'A' ≤ c && c ≤ ch 'Z') || (ch 'a' ≤ c && c ≤ ch 'z') || (ch '0' ≤ c && c ≤ ch '9') ||
    c = ch '_' || c = ch '-'

/-- `NAME_RE.match`; `$` is before a newline at the end too. -/
def matchesName (name : PyStr) : Bool :=
  let line := if name.getLast? = some (ch '\n') then name.dropLast else name
  line ≠ [] && line.length ≤ 64 && line.all isNameChar

/-- `" ".join(text.split())`. -/
def oneLine (text : PyStr) : PyStr :=
  [ch ' '].intercalate ((text.splitOnP py.isSpace).filter (· ≠ []))

/-- The decorator. -/
def tool (fn : Func F R) (name description : Option PyStr) (exposeErrors : Bool) :
    Except PyStr (Tool F R) :=
  if ¬ fn.isPlain then .error (lit "@tool must decorate a plain function")
  else if fn.isAsync then
    .error (lit "async functions are not supported yet; wrap the call in a sync function")
  else if fn.isGenerator then .error (lit "generator functions are not supported")
  else
    let toolName := name.getD fn.name
    if ¬ matchesName toolName then
      .error (lit "tool name " ++ py.repr toolName ++
        lit " is not valid (1-64 letters, digits, _ or -); pass name='...'")
    else
      let text := oneLine py (description.getD fn.summary)
      if text = [] then
        .error (lit "tool '" ++ toolName ++
          lit "' needs a description: add a docstring or pass description='...'")
      else if MAX_DESCRIPTION_CHARS < text.length then
        .error (lit "tool '" ++ toolName ++ lit "': the description is longer than 2000 characters")
      else do
        let parameters ← buildParameters py repr fn.signature fn.paramDocs
        .ok ⟨toolName, text, parameters, makeHandler py fn toolName parameters exposeErrors⟩

/-! ## The toolkit -/

structure Toolkit (F R : Type) where
  maxArgumentsChars : ℕ
  tools : Dict PyStr (Tool F R)

/-- What a provider gives for the arguments. -/
inductive Arguments (F : Type)
  | missing
  | text (s : PyStr)
  | value (v : Value F)

variable (loads : PyStr → Option (Value F))

/-- `_parse`, with the message of a failure; `loads` is `json.loads`. -/
def Toolkit.parse (kit : Toolkit F R) (arguments : Arguments F) :
    Except PyStr (List (PyStr × Value F)) :=
  let dictionary : Value F → Except PyStr (List (PyStr × Value F))
    | .obj members => .ok members
    | _ => .error (lit "arguments must be a JSON object")
  match arguments with
  | .missing => .ok []
  | .text s =>
    if kit.maxArgumentsChars < s.length then
      .error (lit "arguments are too large (max " ++ text (Str.ofNat kit.maxArgumentsChars) ++
        lit " characters)")
    else if s.all py.isSpace then .ok []
    else match loads s with
      | some v => dictionary v
      | none => .error (lit "arguments are not valid JSON")
  | .value v => dictionary v

/-- The result of a call, with the arguments of `func(**args)` if it came to that. -/
structure Outcome (F R : Type) where
  result : ToolResult R
  called : Option (List (PyStr × Value F))

/-- `Toolkit.call`. -/
def Toolkit.call (kit : Toolkit F R) (name : Value F) (arguments : Arguments F) : Outcome F R :=
  let found := match name with
    | .str s => kit.tools.get? s
    | _ => none
  match found with
  | none => ⟨fail (lit "unknown tool '" ++ clip py name 60 ++ lit "'"), none⟩
  | some t =>
    match kit.parse py loads arguments with
    | .error message => ⟨fail message, none⟩
    | .ok parsed =>
      let args := dropNullOptionals t.parameters parsed
      match validateArguments py t.parameters (.obj args) with
      | some problem => ⟨fail (lit "invalid arguments: " ++ problem), none⟩
      | none =>
        let handled := t.handler args
        let result := match handled.ran with
          | .result out => out
          | .value _ => fail (t.name ++ lit " returned an invalid result")
          | .toolError text =>
            if safeText py text = [] then fail (t.name ++ lit " failed")
            else fail (safeText py text)
          | .exception type _ => fail (t.name ++ lit " failed (" ++ type ++ lit ")")
        ⟨result, handled.called⟩

/-! ## What is called -/

/-- Either the arguments are refused and the function is not called, or it is called with arguments
that bind and that the annotations admit. -/
def Sound (sig : Signature F) (out : Outcome F R) : Prop :=
  (out.called = none ∧ ∃ problem, out.result = fail (lit "invalid arguments: " ++ problem)) ∨
  ∃ args, out.called = some args ∧ Binds sig args ∧
    ∀ p ∈ sig.params, ∀ e ∈ args, e.1 = p.name → ∃ ann, p.annotation = some ann ∧ Accepts ann e.2

variable {py repr loads} {fn : Func F R} {t : Tool F R} {parameters : Value F}
  {args : List (PyStr × Value F)}

theorem dropNullOptionals_idem (parameters : Value F) (args : List (PyStr × Value F)) :
    dropNullOptionals parameters (dropNullOptionals parameters args) =
      dropNullOptionals parameters args := by
  simp only [dropNullOptionals, List.filter_filter, Bool.and_self]

/-- What the decorator makes of a function. -/
theorem of_tool {name description : Option PyStr} {exposeErrors : Bool}
    (h : tool py repr fn name description exposeErrors = .ok t) :
    buildParameters py repr fn.signature fn.paramDocs = .ok t.parameters ∧
      t.handler = makeHandler py fn t.name t.parameters exposeErrors := by
  rw [tool] at h
  dsimp only at h
  split_ifs at h
  obtain ⟨parameters, hparameters, ht⟩ := bind_eq_ok.1 h
  obtain rfl := Except.ok.inj ht
  exact ⟨hparameters, rfl⟩

/-- Without parameters nothing is refused and nothing dropped. -/
theorem of_no_params (h : buildParameters py repr fn.signature fn.paramDocs = .ok parameters)
    (hnone : fn.signature.params = []) : dropNullOptionals parameters args = args ∧
      validateArguments py parameters (.obj args) = none := by
  obtain ⟨props, rfl, hprops⟩ := of_buildParameters h
  rw [hnone] at hprops ⊢
  obtain rfl := List.forall₂_nil_left_iff.1 hprops
  refine ⟨List.filter_eq_self.2 fun e _ => ?_, validateArguments_eq_none_iff.2 ⟨nofun, ?_⟩⟩
  · obtain ⟨k, v⟩ := e
    rw [properties_parametersOf]
    rcases v with (_ | b | n | x) | s | items | members <;> rfl
  · exact fun e _ => rfl

theorem called_makeHandler {toolName : PyStr} {exposeErrors : Bool}
    (h : validateArguments py parameters (.obj (dropNullOptionals parameters args)) = none) :
    (makeHandler py fn toolName parameters exposeErrors args).called =
      some (dropNullOptionals parameters args) := by
  rw [makeHandler]
  dsimp only
  rw [h]

section

variable {kit : Toolkit F R} {key : PyStr} {arguments : Arguments F}

/-- The arguments are refused before the handler is called. -/
theorem call_of_problem {problem : PyStr} (hkit : kit.tools.get? key = some t)
    (hparse : kit.parse py loads arguments = .ok args)
    (h : validateArguments py t.parameters (.obj (dropNullOptionals t.parameters args)) =
      some problem) : kit.call py loads (.str key) arguments =
        ⟨fail (lit "invalid arguments: " ++ problem), none⟩ := by
  rw [Toolkit.call]
  simp only [hkit, hparse, h]

/-- What is called is what the handler calls. -/
theorem called_call (hkit : kit.tools.get? key = some t)
    (hparse : kit.parse py loads arguments = .ok args)
    (h : validateArguments py t.parameters (.obj (dropNullOptionals t.parameters args)) = none) :
    (kit.call py loads (.str key) arguments).called =
      (t.handler (dropNullOptionals t.parameters args)).called := by
  rw [Toolkit.call]
  simp only [hkit, hparse, h]

end

/-- For every function that the decorator accepts and every arguments that are a dictionary: the
call is sound just when the function has a parameter or there are no arguments. -/
theorem call_sound_iff (fn : Func F R) (name description : Option PyStr) (exposeErrors : Bool)
    (ht : tool py repr fn name description exposeErrors = .ok t) (kit : Toolkit F R) (key : PyStr)
    (hkit : kit.tools.get? key = some t) (arguments : Arguments F)
    (hparse : kit.parse py loads arguments = .ok args) :
    Sound fn.signature (kit.call py loads (.str key) arguments) ↔
      fn.signature.params ≠ [] ∨ args = [] := by
  obtain ⟨hparameters, hhandler⟩ := of_tool ht
  have hcalled : validateArguments py t.parameters (.obj (dropNullOptionals t.parameters args)) =
      none → (kit.call py loads (.str key) arguments).called =
        some (dropNullOptionals t.parameters args) := by
    intro h
    have hidem := dropNullOptionals_idem t.parameters args
    rw [called_call hkit hparse h, hhandler, called_makeHandler (by rwa [hidem]), hidem]
  by_cases hnone : fn.signature.params = []
  · -- every argument gets through
    obtain ⟨hdrop, hvalid⟩ : dropNullOptionals t.parameters args = args ∧ _ :=
      of_no_params hparameters hnone
    obtain ⟨hadmitted, hbinds⟩ := of_validateArguments hparameters hvalid
    rw [hdrop] at hcalled
    rw [← hbinds, Sound, hcalled hvalid]
    constructor
    · rintro (⟨h, -⟩ | ⟨args', h, hbinds', -⟩)
      · exact nomatch h
      · rwa [Option.some.inj h]
    · exact fun h => .inr ⟨args, rfl, h, hadmitted⟩
  · refine iff_of_true ?_ (.inl hnone)
    cases hvalid : validateArguments py t.parameters
        (.obj (dropNullOptionals t.parameters args)) with
    | some problem =>
      rw [call_of_problem hkit hparse hvalid]
      exact .inl ⟨rfl, problem, rfl⟩
    | none =>
      obtain ⟨hadmitted, hbinds⟩ := of_validateArguments hparameters hvalid
      exact .inr ⟨_, hcalled hvalid, hbinds.2 (.inl hnone), hadmitted⟩

namespace Sample

/-- An interpreter of few characters. -/
def python : Python ℚ where
  str v := match v with
    | .str s => s
    | _ => []
  repr s := s
  isPrintable _ := true
  isSpace c := c = ch ' '
  formatInt _ := []
  rat := id

/-- A function of these parameters that returns `1`. -/
def function (params : List (Param ℚ)) (nodup : (params.map Param.name).Nodup) : Func ℚ ℕ where
  signature := ⟨params, nodup, none⟩
  name := lit "f"
  isPlain := true
  isAsync := false
  isGenerator := false
  summary := lit "One."
  paramDocs := []
  body _ := .value 1
  bindError _ := []

/-- A tool of these properties. -/
def toolOf (fn : Func ℚ ℕ) (parameters : Value ℚ) : Tool ℚ ℕ where
  name := lit "f"
  description := lit "One."
  parameters := parameters
  handler := makeHandler python fn (lit "f") parameters false

def kit (t : Tool ℚ ℕ) : Toolkit ℚ ℕ where
  maxArgumentsChars := 100
  tools := Dict.empty.set (lit "f") t

/-- One argument, `x`. -/
def arguments : Arguments ℚ := .value (.obj [(lit "x", .atom (.int 1))])

/-- A function without parameters. -/
def ping : Func ℚ ℕ := function [] List.nodup_nil

example : tool python (fun _ => []) ping none none false =
    .ok (toolOf ping (parametersOf [] [])) := rfl

/-- A function of one integer. -/
def next : Func ℚ ℕ :=
  function [⟨lit "x", .positionalOrKeyword, some .int, .empty⟩] (List.nodup_singleton _)

theorem tool_next : tool python (fun _ => []) next none none false =
    .ok (toolOf next (parametersOf [(lit "x", .obj (typed "integer"))] [.str (lit "x")])) := rfl

/-- A function without parameters is called with an argument. -/
theorem unknown_argument : ¬ Sound ping.signature ((kit (toolOf ping (parametersOf [] []))).call
    python (fun _ => none) (.str (lit "f")) arguments) := by
  rintro (⟨h, -⟩ | ⟨args, h, hbinds, -⟩)
  · exact nomatch h
  · obtain rfl := Option.some.inj h
    obtain ⟨p, hp, -⟩ := hbinds.1 _ List.mem_cons_self
    exact List.not_mem_nil hp

/-- A function with a parameter is called with an integer. -/
theorem sound_next : Sound next.signature ((kit (toolOf next
    (parametersOf [(lit "x", .obj (typed "integer"))] [.str (lit "x")]))).call
      python (fun _ => none) (.str (lit "f")) arguments) :=
  (call_sound_iff next none none false tool_next _ (lit "f") rfl arguments rfl).2
    (.inl (List.cons_ne_nil _ _))

end Sample

end RagLeap.Tools
