import RagLeap.Foundations.Text

/-!
# JSON values

The values `json.loads` returns. A number is an integer or the text of a fraction or exponent
form; the members of an object stand in the order of the text, each name once.
-/

namespace RagLeap

/-- A JSON value. -/
inductive Json
  | null
  | bool (b : Bool)
  | int (n : ℤ)
  | float (text : Str)
  | str (s : Str)
  | arr (items : List Json)
  | obj (members : List (Str × Json))

namespace Json

/-- `value.get(name)` on an object; `none` on anything else. -/
def get? (v : Json) (name : Str) : Option Json :=
  match v with
  | .obj members => members.lookup name
  | _ => none

/-- The text of a string value. -/
def asStr? : Json → Option Str
  | .str s => some s
  | _ => none

end Json

end RagLeap
