import RagLeap.Foundations.Dict
import RagLeap.Foundations.Text

/-!
# TOML values

What a manifest holds, as the interpreter sees it after reading it.
-/

namespace RagLeap

/-- A value; a float, a date or a time is known by its truth value and its `str`. -/
inductive Toml
  | str (s : Str)
  | int (n : ℤ)
  | bool (b : Bool)
  | arr (items : List Toml)
  | table (entries : List (Str × Toml))
  | other (truth : Bool) (text : Str)

namespace Toml

/-- `bool(v)`. -/
def truthy : Toml → Bool
  | str s => s ≠ []
  | int n => n ≠ 0
  | bool b => b
  | arr items => !items.isEmpty
  | table entries => !entries.isEmpty
  | other truth _ => truth

def asStr? : Toml → Option Str
  | str s => some s
  | _ => none

/-- The strings of a list of strings. -/
def asStrs? : Toml → Option (List Str)
  | arr items => items.mapM asStr?
  | _ => none

/-- A table: its keys, each once, and their values. -/
abbrev Table : Type := Dict Str Toml

end Toml

end RagLeap
