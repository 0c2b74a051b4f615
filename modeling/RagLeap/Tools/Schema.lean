import Mathlib
import RagLeap.Foundations.JsonValue
import RagLeap.Foundations.Raising

/-!
# Schemas of tool arguments

`_schema.py` of the tools package derives a JSON Schema from the annotations of a function
(`buildParameters`) and checks the arguments of a call against a schema (`validateArguments`). A
schema is a dictionary, so both are about values. `Accepts` is what an annotation says of a value:
`accepts_of_check` is the agreement of the two.
-/

namespace RagLeap.Tools

open JsonText

variable {F : Type}

/-- A text of the code. -/
def lit (s : String) : PyStr := text s.toList

/-- What the interpreter does that the schemas rely on: `str(value)`, `repr` of a string,
`str.isprintable` and `str.isspace` of a character, `"%d" % x` of a number and the rational number
that a float is. -/
structure Python (F : Type) where
  str : Value F → PyStr
  repr : PyStr → PyStr
  isPrintable : CodePoint → Bool
  isSpace : CodePoint → Bool
  formatInt : Atom F → PyStr
  rat : F → ℚ

/-! ## Texts -/

variable (py : Python F)

/-- The text, or its beginning with dots. -/
def shorten (text : PyStr) (limit : ℕ) : PyStr :=
  if text.length ≤ limit then text else text.take (limit - 3) ++ lit "..."

def clip (value : Value F) (limit : ℕ) : PyStr :=
  shorten (((py.str value).take (limit * 2)).map fun c =>
    if py.isPrintable c then c else ch '?') limit

/-- `clip` of a name. -/
def clipName (name : PyStr) : PyStr := clip py (.str name) 60

def safeText (value : PyStr) : PyStr :=
  shorten ([ch ' '].intercalate
    (((value.take (500 * 4)).splitOnP py.isSpace).filter (· ≠ []))) 500

/-! ## Numbers and equality -/

/-- A number that is not a truth value; `_num` says whether it is one. -/
def numeric (a : Atom F) : Option (Flt ℚ) :=
  match a with
  | .int n => some (.finite n)
  | .float (.finite x) => some (.finite (py.rat x))
  | .float (.infinity negative) => some (.infinity negative)
  | .float .nan => some .nan
  | .null | .bool _ => none

/-- `x < y`. -/
def less : Flt ℚ → Flt ℚ → Bool
  | .finite x, .finite y => x < y
  | .infinity negative, .finite _ => negative
  | .finite _, .infinity negative => !negative
  | .infinity negative, .infinity negative' => negative && !negative'
  | .nan, _ | _, .nan => false

/-- `x == y` of atoms: truth values are the numbers `0` and `1`. -/
def equalAtoms (a b : Atom F) : Bool :=
  match a, b with
  | .null, .null => true
  | .null, _ | _, .null => false
  | a, b =>
    let number : Atom F → Option (Flt ℚ)
      | .bool true => some (.finite 1)
      | .bool false => some (.finite 0)
      | a => numeric py a
    number a = number b && number a ≠ some .nan

mutual

/-- `x == y`. -/
def equal : Value F → Value F → Bool
  | .atom a, .atom b => equalAtoms py a b
  | .str s, .str t => s = t
  | .arr items, .arr items' => equalItems items items'
  | .obj members, .obj members' =>
    members.length = members'.length && equalMembers members members'
  | _, _ => false

def equalItems : List (Value F) → List (Value F) → Bool
  | [], [] => true
  | v :: items, v' :: items' => equal v v' && equalItems items items'
  | _, _ => false

def equalMembers : List (PyStr × Value F) → List (PyStr × Value F) → Bool
  | [], _ => true
  | (k, v) :: members, members' =>
    (match members'.lookup k with
      | some v' => equal v v'
      | none => false) && equalMembers members members'

end

/-- `_same`. -/
def same : Value F → Value F → Bool
  | .atom (.bool b), .atom (.bool b') => b = b'
  | .atom (.bool _), _ | _, .atom (.bool _) => false
  | a, b => equal py a b

/-! ## Checking a value -/

def MAX_DEPTH : ℕ := 20

/-- `schema.get(key)` of a dictionary, where `None` is the same as nothing. -/
def get (schema : Value F) (key : String) : Option (Value F) :=
  match schema with
  | .obj members =>
    match members.lookup (lit key) with
    | some (.atom .null) => none
    | found => found
  | _ => none

/-- The names of `_TYPES` that a value has. -/
def hasType (name : PyStr) : Value F → Bool
  | .atom .null => name = lit "null"
  | .atom (.bool _) => name = lit "boolean"
  | .atom (.int _) => name = lit "integer" || name = lit "number"
  | .atom (.float _) => name = lit "number"
  | .str _ => name = lit "string"
  | .arr _ => name = lit "array"
  | .obj _ => name = lit "object"

/-- `names` for the declared type. -/
def typeNames : Value F → List (Value F)
  | .arr names => names
  | declared => [declared]

def checkType (value schema : Value F) (path : PyStr) : Option PyStr :=
  match get schema "type" with
  | none => none
  | some declared =>
    if (typeNames declared).any fun n =>
        match n with
        | .str name => hasType name value
        | _ => false then none
    else some (path ++ lit " must be of type " ++
      [ch '/'].intercalate ((typeNames declared).map fun n => clip py n 20))

def checkFinite (value : Value F) (path : PyStr) : Option PyStr :=
  match value with
  | .atom (.float (.infinity _)) | .atom (.float .nan) =>
    some (path ++ lit " must be a finite number")
  | _ => none

def checkEnum (value schema : Value F) (path : PyStr) : Option PyStr :=
  match get schema "enum" with
  | some (.arr options) =>
    if options.any (same py value) then none
    else some (path ++ lit " must be one of the allowed values")
  | _ => none

/-- A bound of the schema, if it has one, is met. -/
def checkBound (schema : Value F) (key : String) (meets : Flt ℚ → Bool)
    (message : Atom F → PyStr) : Option PyStr :=
  match get schema key with
  | some (.atom a) =>
    match numeric py a with
    | some bound => if meets bound then none else some (message a)
    | none => none
  | _ => none

/-- The two bounds on the number of characters or items. -/
def checkSize (schema : Value F) (low high : String) (size : ℕ) (path : PyStr)
    (below above what : String) : Option PyStr :=
  (checkBound py schema low (fun bound => !less (.finite size) bound) fun a =>
    path ++ lit below ++ py.formatInt a ++ lit what).or <|
  checkBound py schema high (fun bound => !less bound (.finite size)) fun a =>
    path ++ lit above ++ py.formatInt a ++ lit what

/-- `properties` of a schema, if they are a dictionary. -/
def properties (schema : Value F) : List (PyStr × Value F) :=
  match get schema "properties" with
  | some (.obj props) => props
  | _ => []

/-- The names of `required`. -/
def requiredNames (schema : Value F) : List PyStr :=
  match get schema "required" with
  | some (.arr names) => names.filterMap fun n =>
    match n with
    | .str name => some name
    | _ => none
  | _ => []

/-- `_check_object`; `child` is `_check` one level below. -/
def checkObject (child : Value F → Value F → PyStr → Option PyStr) (obj : List (PyStr × Value F))
    (schema : Value F) (path : PyStr) (top : Bool) : Option PyStr :=
  ((requiredNames schema).findSome? fun name =>
    if (obj.lookup name).isSome then none
    else if top then some (lit "missing required argument '" ++ clipName py name ++ lit "'")
    else some (path ++ lit " is missing '" ++ clipName py name ++ lit "'")).or <|
  obj.findSome? fun (key, val) =>
    let childPath := if top then lit "argument '" ++ clipName py key ++ lit "'"
      else path ++ lit "." ++ clipName py key
    match (properties schema).lookup key with
    | some sub => child val sub childPath
    | none =>
      match get schema "additionalProperties" with
      | some (.atom (.bool false)) =>
        some (if top then lit "unknown argument '" ++ clipName py key ++ lit "'"
          else path ++ lit " has an unknown key")
      | none =>
        if top ∧ properties schema ≠ [] then
          some (lit "unknown argument '" ++ clipName py key ++ lit "'")
        else none
      | some (.obj extra) => child val (.obj extra) childPath
      | some _ => none

/-- The last part of `_check`, by the kind of the value. -/
def checkParts (child : Value F → Value F → PyStr → Option PyStr) (value schema : Value F)
    (path : PyStr) : Option PyStr :=
  match value with
  | .str s => checkSize py schema "minLength" "maxLength" s.length path
      " is shorter than " " is longer than " " characters"
  | .atom a =>
    match numeric py a with
    | some x =>
      (checkBound py schema "minimum" (fun bound => !less x bound) fun a =>
        path ++ lit " is below the minimum " ++ py.str (.atom a)).or <|
      checkBound py schema "maximum" (fun bound => !less bound x) fun a =>
        path ++ lit " is above the maximum " ++ py.str (.atom a)
    | none => none
  | .arr items =>
    (checkSize py schema "minItems" "maxItems" items.length path
      " has fewer than " " has more than " " items").or <|
    match get schema "items" with
    | some (.obj sub) => items.zipIdx.findSome? fun (item, i) =>
        child item (.obj sub) (path ++ lit "[" ++ text (Str.ofNat i) ++ lit "]")
    | _ => none
  | .obj members => checkObject py child members schema path false

/-- `_check`, with the number of levels that are left. -/
def check : ℕ → Value F → Value F → PyStr → Option PyStr
  | 0, _, _, path => some (path ++ lit " is nested too deeply")
  | levels + 1, value, schema, path =>
    match schema with
    | .obj (_ :: _) =>
      (checkType py value schema path).or <| (checkFinite value path).or <|
      (checkEnum py value schema path).or <| checkParts py (check levels) value schema path
    | _ => none

/-- `validate_arguments`: the first problem. -/
def validateArguments (schema arguments : Value F) : Option PyStr :=
  match arguments with
  | .obj args =>
    match schema with
    | .obj _ => checkObject py (check py MAX_DEPTH) args schema (lit "argument") true
    | _ => none
  | _ => some (lit "arguments must be a JSON object")

def allowsNull (sub : Value F) : Bool :=
  match sub with
  | .obj members =>
    match members.lookup (lit "type") with
    | none => true
    | some declared => (typeNames declared).any fun n =>
      match n with
      | .str name => name = lit "null"
      | _ => false
  | _ => true

/-- `drop_null_optionals`. -/
def dropNullOptionals (schema : Value F) (arguments : List (PyStr × Value F)) :
    List (PyStr × Value F) :=
  arguments.filter fun (k, v) =>
    match v, (properties schema).lookup k with
    | .atom .null, some sub => k ∈ requiredNames schema || allowsNull sub
    | _, _ => true

/-! ## The schema of a function -/

/-- An annotation, resolved: `union` is `Union[...]` and `X | Y`, and an annotation that is none of
the others comes with its text. -/
inductive Annotation (F : Type)
  | any
  | bool
  | str
  | int
  | float
  | noneType
  | union (args : List ( Annotation F))
  | literal (values : List (Value F))
  | list (args : List ( Annotation F))
  | dict
  | other (text : PyStr)

/-- The type of a value of `Literal`, where it is `str`, `int` or `bool`. -/
def literalKind : Value F → Option String
  | .str _ => some "string"
  | .atom (.int _) => some "integer"
  | .atom (.bool _) => some "boolean"
  | _ => none

/-- The one type of the values of a `Literal`. -/
def literalType (values : List (Value F)) : Option String :=
  match values with
  | [] => none
  | v :: rest =>
    if rest.all fun v' => literalKind v' = literalKind v then literalKind v else none

def typed (kind : String) : List (PyStr × Value F) := [(lit "type", .str (lit kind))]

variable (repr : Annotation F → PyStr)

/-- `_annotation_schema`: the members of the schema and whether the annotation is optional. -/
def annotationSchema (pname : PyStr) :
    Annotation F → Bool → Except PyStr (List (PyStr × Value F) × Bool)
  | .any, _ => .ok ([], false)
  | .bool, _ => .ok (typed "boolean", false)
  | .str, _ => .ok (typed "string", false)
  | .int, _ => .ok (typed "integer", false)
  | .float, _ => .ok (typed "number", false)
  | .union [.noneType, a], nested | .union [a, .noneType], nested =>
    if nested then
      .error (lit "parameter '" ++ pname ++
        lit "': Optional is not supported inside list or dict types")
    else do
      let (inner, _) ← annotationSchema pname a nested
      .ok (inner, true)
  | .union _, _ =>
    .error (lit "parameter '" ++ pname ++
      lit "': only Optional[X] unions are supported, not a union of several types")
  | .literal values, _ =>
    match literalType values with
    | some kind => .ok (typed kind ++ [(lit "enum", .arr values)], false)
    | none => .error (lit "parameter '" ++ pname ++
        lit "': Literal values must be non-empty and all str, all int or all bool")
  | .list [], _ => .ok (typed "array", false)
  | .list (a :: _), _ => do
    let (inner, _) ← annotationSchema pname a true
    .ok (typed "array" ++ [(lit "items", .obj inner)], false)
  | .dict, _ => .ok (typed "object", false)
  | ann, _ =>
    .error (lit "parameter '" ++ pname ++ lit "' has an unsupported type annotation " ++ repr ann ++
      lit (" (supported: str, int, float, bool, " ++
        "Optional[X], Literal[...], list[X], dict, Any)"))

inductive Kind
  | positionalOnly
  | positionalOrKeyword
  | varPositional
  | keywordOnly
  | varKeyword
  deriving DecidableEq

/-- The default of a parameter: none, a value or another object. -/
inductive Default (F : Type)
  | empty
  | value (v : Value F)
  | other

/-- A parameter with its annotation, if it has one. -/
structure Param (F : Type) where
  name : PyStr
  kind : Kind
  annotation : Option ( Annotation F)
  default : Default F

/-- `inspect.signature` and `typing.get_type_hints` of a function; `unresolved` is the name of the
exception that the latter raises. -/
structure Signature (F : Type) where
  params : List (Param F)
  nodup : (params.map Param.name).Nodup
  unresolved : Option PyStr

/-- What `isinstance(d, (str, int, float, bool))` lets through. -/
def plainDefault : Value F → Bool
  | .str _ => true
  | .atom .null => false
  | .atom _ => true
  | .arr _ | .obj _ => false

/-- The description of a parameter, if there is one. -/
def description (docs : List (PyStr × PyStr)) (pname : PyStr) : List (PyStr × Value F) :=
  match docs.lookup pname with
  | some (c :: doc) => [(lit "description", .str (c :: doc))]
  | _ => []

/-- The loop body: the schema of a parameter. -/
def paramSchema (docs : List (PyStr × PyStr)) (p : Param F) :
    Except PyStr (List (PyStr × Value F)) :=
  let parameter := lit "parameter '" ++ p.name
  if p.kind = .varPositional ∨ p.kind = .varKeyword then
    .error (parameter ++ lit "': *args and **kwargs are not supported")
  else if p.kind = .positionalOnly then
    .error (parameter ++ lit "' is positional-only; a model passes arguments by name")
  else
    match p.annotation with
    | none => .error (parameter ++ lit "' needs a type annotation")
    | some ann => do
      let (schema, optional) ← annotationSchema repr p.name ann false
      let described := schema ++ description docs p.name
      match p.default with
      | .empty =>
        if optional then
          .error (parameter ++ lit "' is Optional but has no default; write " ++ p.name ++
            lit " = None")
        else .ok described
      | .value (.atom .null) => .ok described
      | .value d =>
        if ¬ plainDefault d then
          .error (parameter ++ lit "': a default must be a str, int, float, bool or None")
        else if (check py (MAX_DEPTH + 1) d (.obj described) (lit "default")).isSome then
          .error (parameter ++ lit "': the default does not match its annotation")
        else .ok (described ++ [(lit "default", d)])
      | .other =>
        .error (parameter ++ lit "': a default must be a str, int, float, bool or None")

/-- A parameter without a default. -/
def Param.required (p : Param F) : Bool :=
  match p.default with
  | .empty => true
  | _ => false

def buildParameters (sig : Signature F) (docs : List (PyStr × PyStr)) : Except PyStr (Value F) :=
  match sig.unresolved with
  | some exception =>
    .error (lit "cannot resolve the type annotations (" ++ exception ++ lit ")")
  | none => do
    let props ← sig.params.mapM fun p => do
      let schema ← paramSchema py repr docs p
      .ok (p.name, Value.obj schema)
    .ok (.obj [(lit "type", .str (lit "object")), (lit "properties", .obj props),
      (lit "required", .arr ((sig.params.filter Param.required).map fun p => .str p.name))])

/-! ## What an annotation says -/

/-- A value is one that the annotation admits. -/
inductive Accepts : Annotation F → Value F → Prop
  | any (v : Value F) : Accepts .any v
  | bool (b : Bool) : Accepts .bool (.atom (.bool b))
  | str (s : PyStr) : Accepts .str (.str s)
  | int (n : ℤ) : Accepts .int (.atom (.int n))
  | floatInt (n : ℤ) : Accepts .float (.atom (.int n))
  | float (x : F) : Accepts .float (.atom (.float (.finite x)))
  | none : Accepts .noneType (.atom .null)
  | union {args : List ( Annotation F)} {a : Annotation F} {v : Value F} : a ∈ args → Accepts a v →
      Accepts (.union args) v
  | literal {values : List (Value F)} {v : Value F} : v ∈ values → Accepts (.literal values) v
  | bareList (items : List (Value F)) : Accepts (.list []) (.arr items)
  | list {a : Annotation F} {rest : List ( Annotation F)} {items : List (Value F)} :
      (∀ v ∈ items, Accepts a v) → Accepts (.list (a :: rest)) (.arr items)
  | dict (members : List (PyStr × Value F)) : Accepts .dict (.obj members)

variable {py repr}

@[simp] theorem lit_inj {s t : String} : lit s = lit t ↔ s = t := by
  rw [lit, lit, text_injective.eq_iff, String.toList_inj]

theorem check_cons (levels : ℕ) (v : Value F) (e : PyStr × Value F)
    (rest : List (PyStr × Value F)) (path : PyStr) :
    check py (levels + 1) v (.obj (e :: rest)) path =
      ((checkType py v (.obj (e :: rest)) path).or <| (checkFinite v path).or <|
        (checkEnum py v (.obj (e :: rest)) path).or <|
          checkParts py (check py levels) v (.obj (e :: rest)) path) := rfl

@[simp] theorem lit_beq {s t : String} : (lit s == lit t) = (s == t) := by
  rw [Bool.eq_iff_iff, beq_iff_eq, beq_iff_eq, lit_inj]

/-- A value that passes the check passes each part of it. -/
theorem of_check {levels : ℕ} {v : Value F} {members : List (PyStr × Value F)} {path : PyStr}
    (hne : members ≠ []) (h : check py (levels + 1) v (.obj members) path = none) :
    checkType py v (.obj members) path = none ∧ checkFinite v path = none ∧
      checkEnum py v (.obj members) path = none ∧
      checkParts py (check py levels) v (.obj members) path = none := by
  obtain ⟨e, rest, rfl⟩ := List.exists_cons_of_ne_nil hne
  rw [check_cons] at h
  simpa only [Option.or_eq_none_iff] using h

theorem hasType_of_checkType {v : Value F} {members : List (PyStr × Value F)} {path : PyStr}
    {kind : String} (htype : get (.obj members) "type" = some (.str (lit kind)))
    (h : checkType py v (.obj members) path = none) : hasType (lit kind) v = true := by
  rw [checkType, htype] at h
  have hnames : typeNames (.str (lit kind) : Value F) = [.str (lit kind)] := rfl
  by_contra hnot
  simp [hnames, hnot] at h

theorem items_of_checkParts {child : Value F → Value F → PyStr → Option PyStr}
    {items : List (Value F)} {schema : Value F} {sub : List (PyStr × Value F)} {path : PyStr}
    (hsub : get schema "items" = some (.obj sub))
    (h : checkParts py child (.arr items) schema path = none) :
    ∀ item ∈ items, ∃ path', child item (.obj sub) path' = none := by
  intro item hitem
  simp only [checkParts, Option.or_eq_none_iff, hsub, List.findSome?_eq_none_iff] at h
  obtain ⟨i, hi, rfl⟩ := List.mem_iff_getElem.1 hitem
  exact ⟨_, h.2 (items[i], i) (List.mem_zipIdx_iff_getElem?.2 (List.getElem?_eq_getElem hi))⟩

/-- A schema begins with its type, whatever is added to it later. -/
theorem hasType_of_check {levels : ℕ} {v : Value F} {rest : List (PyStr × Value F)} {path : PyStr}
    {kind : String} (h : check py (levels + 1) v (.obj (typed kind ++ rest)) path = none) :
    hasType (lit kind) v = true := by
  refine hasType_of_checkType ?_ (of_check (List.cons_ne_nil _ _) h).1
  simp [get, List.lookup]

theorem get_second {kind key : String} {sub : Value F} {rest : List (PyStr × Value F)}
    (hkey : key ≠ "type") (hsub : sub ≠ .atom .null) :
    get (.obj (typed kind ++ [(lit key, sub)] ++ rest)) key = some sub := by
  have hne : (lit key == lit "type") = false := by simpa using hkey
  simp only [get, typed, List.cons_append, List.nil_append, List.lookup, hne, beq_self_eq_true]
  split
  · exact absurd (Option.some.inj ‹_›) hsub
  · rfl

theorem eq_str_of_hasType {v : Value F} (h : hasType (lit "string") v = true) :
    ∃ s, v = .str s := by
  rcases v with (_ | b | n | x) | s | items | members <;> simp [hasType] at h
  exact ⟨s, rfl⟩

theorem eq_int_of_hasType {v : Value F} (h : hasType (lit "integer") v = true) :
    ∃ n, v = .atom (.int n) := by
  rcases v with (_ | b | n | x) | s | items | members <;> simp [hasType] at h
  exact ⟨n, rfl⟩

theorem eq_bool_of_hasType {v : Value F} (h : hasType (lit "boolean") v = true) :
    ∃ b, v = .atom (.bool b) := by
  rcases v with (_ | b | n | x) | s | items | members <;> simp [hasType] at h
  exact ⟨b, rfl⟩

theorem eq_arr_of_hasType {v : Value F} (h : hasType (lit "array") v = true) :
    ∃ items, v = .arr items := by
  rcases v with (_ | b | n | x) | s | items | members <;> simp [hasType] at h
  exact ⟨items, rfl⟩

theorem eq_obj_of_hasType {v : Value F} (h : hasType (lit "object") v = true) :
    ∃ members, v = .obj members := by
  rcases v with (_ | b | n | x) | s | items | members <;> simp [hasType] at h
  exact ⟨members, rfl⟩

theorem accepts_float {v : Value F} {path : PyStr} (h : hasType (lit "number") v = true)
    (hfinite : checkFinite v path = none) : Accepts .float v := by
  rcases v with (_ | b | n | x) | s | items | members <;> simp [hasType] at h
  · exact .floatInt n
  · cases x with
    | finite x => exact .float x
    | infinity negative => exact nomatch hfinite
    | nan => exact nomatch hfinite

/-- The values of a `Literal` are those that are the same as one of them. -/
theorem mem_of_same {values : List (Value F)} {kind : String} {v : Value F}
    (hkind : literalType values = some kind) (htype : hasType (lit kind) v = true)
    (hsame : values.any (same py v) = true) : v ∈ values := by
  have hall : ∀ v' ∈ values, literalKind v' = some kind := by
    cases values with
    | nil => exact nofun
    | cons v₀ rest =>
      rw [literalType] at hkind
      split_ifs at hkind with hrest
      intro v' hv'
      rcases List.mem_cons.1 hv' with rfl | hv'
      · exact hkind
      · exact (of_decide_eq_true (List.all_eq_true.1 hrest v' hv')).trans hkind
  obtain ⟨v', hv', heq⟩ := List.any_eq_true.1 hsame
  have hkind' := hall v' hv'
  have hv : v = v' := by
    match v', hkind' with
    | .str s, hstr =>
      obtain rfl := Option.some.inj hstr
      obtain ⟨t, rfl⟩ := eq_str_of_hasType htype
      simpa [same, equal] using heq
    | .atom (.int n), hint =>
      obtain rfl := Option.some.inj hint
      obtain ⟨n', rfl⟩ := eq_int_of_hasType htype
      simpa [same, equal, equalAtoms, numeric] using heq
    | .atom (.bool b), hbool =>
      obtain rfl := Option.some.inj hbool
      obtain ⟨b', rfl⟩ := eq_bool_of_hasType htype
      simpa [same] using heq
  exact hv ▸ hv'

/-- What passes the check against the schema of an annotation is what the annotation admits. -/
theorem accepts_of_check (pname : PyStr) (a : Annotation F) (nested : Bool) :
    ∀ {m : List (PyStr × Value F)} {optional : Bool} {levels : ℕ} {v : Value F} {path : PyStr}
      {extra : List (PyStr × Value F)}, annotationSchema repr pname a nested = .ok (m, optional) →
      check py levels v (.obj (m ++ extra)) path = none → Accepts a v := by
  fun_induction annotationSchema repr pname a nested
  all_goals
    intro m optional levels v path extra h hcheck
    cases levels with
    | zero => exact nomatch hcheck
    | succ levels => ?_
  case case1 => exact .any v
  case case2 =>
    obtain ⟨rfl, -⟩ := Prod.mk.inj (Except.ok.inj h)
    obtain ⟨b, rfl⟩ := eq_bool_of_hasType (hasType_of_check hcheck)
    exact .bool b
  case case3 =>
    obtain ⟨rfl, -⟩ := Prod.mk.inj (Except.ok.inj h)
    obtain ⟨s, rfl⟩ := eq_str_of_hasType (hasType_of_check hcheck)
    exact .str s
  case case4 =>
    obtain ⟨rfl, -⟩ := Prod.mk.inj (Except.ok.inj h)
    obtain ⟨n, rfl⟩ := eq_int_of_hasType (hasType_of_check hcheck)
    exact .int n
  case case5 =>
    obtain ⟨rfl, -⟩ := Prod.mk.inj (Except.ok.inj h)
    exact accepts_float (hasType_of_check hcheck) (of_check (List.cons_ne_nil _ _) hcheck).2.1
  case case6 => exact nomatch h
  case case7 a nested hnested ih =>
    obtain ⟨r, hr, hrest⟩ := bind_eq_ok.1 h
    obtain ⟨rfl, -⟩ := Prod.mk.inj (Except.ok.inj hrest)
    exact .union (List.mem_cons_of_mem _ List.mem_cons_self) (ih hr hcheck)
  case case8 => exact nomatch h
  case case9 a nested _ hnested ih =>
    obtain ⟨r, hr, hrest⟩ := bind_eq_ok.1 h
    obtain ⟨rfl, -⟩ := Prod.mk.inj (Except.ok.inj hrest)
    exact .union List.mem_cons_self (ih hr hcheck)
  case case10 => exact nomatch h
  case case11 values _ kind hkind =>
    obtain ⟨rfl, -⟩ := Prod.mk.inj (Except.ok.inj h)
    have hne : typed kind ++ [(lit "enum", .arr values)] ++ extra ≠ [] := List.cons_ne_nil _ _
    have hget : get (.obj (typed kind ++ [(lit "enum", .arr values)] ++ extra)) "enum" =
        some (.arr values) := get_second (by decide) nofun
    have henum := (of_check hne hcheck).2.2.1
    rw [checkEnum, hget] at henum
    have hsame : values.any (same py v) = true := by
      by_contra hnot
      simp [hnot] at henum
    rw [List.append_assoc] at hcheck
    exact .literal (mem_of_same hkind (hasType_of_check hcheck) hsame)
  case case12 => exact nomatch h
  case case13 =>
    obtain ⟨rfl, -⟩ := Prod.mk.inj (Except.ok.inj h)
    obtain ⟨items, rfl⟩ := eq_arr_of_hasType (hasType_of_check hcheck)
    exact .bareList items
  case case14 a rest _ ih =>
    obtain ⟨r, hr, hrest⟩ := bind_eq_ok.1 h
    obtain ⟨rfl, -⟩ := Prod.mk.inj (Except.ok.inj hrest)
    have hparts := (of_check (List.cons_ne_nil _ _) hcheck).2.2.2
    obtain ⟨items, rfl⟩ := eq_arr_of_hasType
      (hasType_of_check ((List.append_assoc _ _ _) ▸ hcheck))
    refine .list fun item hitem => ?_
    obtain ⟨path', hitem'⟩ :=
      items_of_checkParts (get_second (by decide) (by nofun)) hparts item hitem
    have hplain : check py levels item (.obj (r.1 ++ [])) path' = none := by
      rwa [List.append_nil]
    exact ih hr hplain
  case case15 =>
    obtain ⟨rfl, -⟩ := Prod.mk.inj (Except.ok.inj h)
    obtain ⟨members, rfl⟩ := eq_obj_of_hasType (hasType_of_check hcheck)
    exact .dict members
  case case16 => exact nomatch h

/-! ## Arguments that the check lets through -/

/-- The call `func(**args)` of a function with these parameters is one that the interpreter can
make: it knows every name, and no parameter without a default is missing. -/
def Binds (sig : Signature F) (args : List (PyStr × Value F)) : Prop :=
  (∀ e ∈ args, ∃ p ∈ sig.params, p.name = e.1) ∧
    ∀ p ∈ sig.params, p.required = true → ∃ e ∈ args, e.1 = p.name

variable {sig : Signature F} {docs : List (PyStr × PyStr)} {parameters : Value F}
  {args : List (PyStr × Value F)}

section

variable {props : List (PyStr × Value F)} {required : List (Value F)}

/-- The schema of a function with these properties. -/
def parametersOf (props : List (PyStr × Value F)) (required : List (Value F)) : Value F :=
  .obj [(lit "type", .str (lit "object")), (lit "properties", .obj props),
    (lit "required", .arr required)]

theorem properties_parametersOf : properties (parametersOf props required) = props := by
  simp [properties, parametersOf, get, List.lookup]

theorem requiredNames_parametersOf (names : List PyStr) :
    requiredNames (parametersOf props (names.map .str) : Value F) = names := by
  simp [requiredNames, parametersOf, get, List.lookup, List.filterMap_map]

theorem get_parametersOf_additionalProperties :
    get (parametersOf props required : Value F) "additionalProperties" = none := by
  simp [parametersOf, get, List.lookup]

/-- What the check of the arguments looks at. -/
theorem validateArguments_eq_none_iff {names : List PyStr} :
    validateArguments py (parametersOf props (names.map .str)) (.obj args) = none ↔
      (∀ name ∈ names, (args.lookup name).isSome) ∧ ∀ e ∈ args,
        match props.lookup e.1 with
        | some sub =>
          check py MAX_DEPTH e.2 sub (lit "argument '" ++ clipName py e.1 ++ lit "'") = none
        | none => props = [] := by
  change checkObject py (check py MAX_DEPTH) args _ _ true = none ↔ _
  rw [checkObject, Option.or_eq_none_iff, requiredNames_parametersOf, properties_parametersOf,
    get_parametersOf_additionalProperties, List.findSome?_eq_none_iff, List.findSome?_eq_none_iff]
  refine and_congr (forall₂_congr fun name _ => ?_) (forall₂_congr fun e _ => ?_)
  · by_cases h : (args.lookup name).isSome = true
    · simp only [h, if_true]
    · simp [h]
  · obtain ⟨key, val⟩ := e
    dsimp only
    cases props.lookup key with
    | some sub => rfl
    | none =>
      by_cases h : props = []
      · simp [h]
      · simp [h]

end

/-- The schema of a function has a property for each parameter and requires those without a
default. -/
theorem of_buildParameters (h : buildParameters py repr sig docs = .ok parameters) :
    ∃ props, parameters = parametersOf props
        (((sig.params.filter Param.required).map Param.name).map .str) ∧
      List.Forall₂ (fun p e => e.1 = p.name ∧ ∃ schema, e.2 = .obj schema ∧
        paramSchema py repr docs p = .ok schema) sig.params props := by
  rw [buildParameters] at h
  cases hhints : sig.unresolved with
  | some exception =>
    rw [hhints] at h
    exact nomatch h
  | none =>
    rw [hhints] at h
    obtain ⟨props, hprops, hparameters⟩ := bind_eq_ok.1 h
    refine ⟨props, ?_, ?_⟩
    · rw [List.map_map]
      exact (Except.ok.inj hparameters).symm
    rcases mapM_except_cases _ sig.params with ⟨p, -, why, -, herror⟩ | ⟨props', hok, hall⟩
    · exact nomatch hprops.symm.trans herror
    · obtain rfl := Except.ok.inj (hprops.symm.trans hok)
      refine hall.imp fun p e he => ?_
      obtain ⟨schema, hschema, heq⟩ := bind_eq_ok.1 he
      obtain rfl := Except.ok.inj heq
      exact ⟨rfl, schema, rfl, hschema⟩

/-- The schema of a parameter is that of its annotation, with more added. -/
theorem of_paramSchema {p : Param F} {schema : List (PyStr × Value F)}
    (h : paramSchema py repr docs p = .ok schema) : ∃ ann m optional extra,
      p.annotation = some ann ∧ annotationSchema repr p.name ann false = .ok (m, optional) ∧
        schema = m ++ extra := by
  rw [paramSchema] at h
  dsimp only at h
  split_ifs at h
  cases hann : p.annotation with
  | none =>
    rw [hann] at h
    exact nomatch h
  | some ann =>
    rw [hann] at h
    obtain ⟨⟨m, optional⟩, hm, h⟩ := bind_eq_ok.1 h
    refine ⟨ann, m, optional, ?_⟩
    suffices hextra : ∃ extra, schema = m ++ extra by
      obtain ⟨extra, hextra⟩ := hextra
      exact ⟨extra, rfl, hm, hextra⟩
    dsimp only at h
    split at h
    · split_ifs at h
      exact ⟨_, (Except.ok.inj h).symm⟩
    · exact ⟨_, (Except.ok.inj h).symm⟩
    · split_ifs at h
      refine ⟨_, (Except.ok.inj h).symm.trans (List.append_assoc _ _ _)⟩
    · exact nomatch h

theorem mem_of_lookup {l : List (PyStr × Value F)} {k : PyStr} {v : Value F}
    (h : l.lookup k = some v) : (k, v) ∈ l := by
  obtain ⟨l₁, l₂, rfl, -⟩ := List.lookup_eq_some_iff.1 h
  exact List.mem_append_right l₁ List.mem_cons_self

/-- Arguments that pass the check are admitted by the annotations, and bind where the function has
a parameter. -/
theorem of_validateArguments (h : buildParameters py repr sig docs = .ok parameters)
    (hvalid : validateArguments py parameters (.obj args) = none) :
    (∀ p ∈ sig.params, ∀ e ∈ args, e.1 = p.name → ∃ ann, p.annotation = some ann ∧
      Accepts ann e.2) ∧ (Binds sig args ↔ sig.params ≠ [] ∨ args = []) := by
  obtain ⟨props, rfl, hprops⟩ := of_buildParameters h
  obtain ⟨hrequired, hargs⟩ := validateArguments_eq_none_iff.1 hvalid
  have hknown : ∀ e ∈ args, ∀ sub, props.lookup e.1 = some sub → ∃ p ∈ sig.params, p.name = e.1 ∧
      ∃ schema, sub = .obj schema ∧ paramSchema py repr docs p = .ok schema := by
    intro e he sub hsub
    obtain ⟨p, hp, hname, hschema⟩ := exists_left_of_forall₂ hprops (mem_of_lookup hsub)
    exact ⟨p, hp, hname.symm, hschema⟩
  have hunknown : sig.params ≠ [] → props ≠ [] := by
    rintro hne rfl
    exact hne (List.forall₂_nil_right_iff.1 hprops)
  have hlookup : ∀ p ∈ sig.params, (props.lookup p.name).isSome := by
    intro p hp
    obtain ⟨e, he, hname, -⟩ := exists_right_of_forall₂ hprops hp
    rw [List.lookup_isSome_iff]
    exact ⟨e, he, by rw [hname, beq_self_eq_true]⟩
  refine ⟨fun p hp e he hname => ?_, fun hbinds => ?_, fun hcond => ⟨fun e he => ?_, ?_⟩⟩
  · obtain ⟨sub, hsub⟩ := Option.isSome_iff_exists.1 (hname ▸ hlookup p hp)
    obtain ⟨p', hp', hname', schema, rfl, hschema⟩ := hknown e he sub hsub
    obtain rfl : p' = p := List.inj_on_of_nodup_map sig.nodup hp' hp (hname'.trans hname)
    obtain ⟨ann, m, optional, extra, hann, hm, rfl⟩ := of_paramSchema hschema
    have hcheck := hargs e he
    rw [hsub] at hcheck
    exact ⟨ann, hann, accepts_of_check _ ann false hm hcheck⟩
  · by_contra hnot
    obtain ⟨hnone, hargsNe⟩ := not_or.1 hnot
    obtain ⟨e, he⟩ := List.exists_mem_of_ne_nil args hargsNe
    obtain ⟨p, hp, -⟩ := hbinds.1 e he
    rw [not_not.1 hnone] at hp
    exact List.not_mem_nil hp
  · have he' := hargs e he
    cases hsub : props.lookup e.1 with
    | some sub =>
      obtain ⟨p, hp, hname, -⟩ := hknown e he sub hsub
      exact ⟨p, hp, hname⟩
    | none =>
      rw [hsub] at he'
      rcases hcond with hne | rfl
      · exact absurd he' (hunknown hne)
      · exact absurd he List.not_mem_nil
  · intro p hp hreq
    have hsome := hrequired p.name
      (List.mem_map_of_mem (List.mem_filter.2 ⟨hp, hreq⟩))
    obtain ⟨v, hv⟩ := Option.isSome_iff_exists.1 hsome
    exact ⟨(p.name, v), mem_of_lookup hv, rfl⟩

end RagLeap.Tools
