import RagLeap.Foundations.JsonRaw

/-!
# JSON text as `json.dumps` writes it by default

`json.dumps(value)`: characters outside ASCII are escaped, and a space follows each comma and colon.
Reading the text back gives the value as `reread` says, with its surrogate pairs put together and
its objects made dictionaries (`parse_dumps`). A value that `json.loads` gave is a dictionary
already, so only a string that holds the two halves of a character side by side comes back changed
(`reread_eq_self`).
-/

namespace RagLeap

namespace JsonText

open PyStr

variable {F : Type} (fl : Floats F)

/-! ## Printing -/

mutual

/-- `json.dumps(value)`. -/
def dumps : Value F → PyStr
  | .atom a => atomText fl a
  | .str s => quote s
  | .arr items => ch '[' :: commaSep (dumpsItems items) ++ [ch ']']
  | .obj members => ch '\x7b' :: commaSep (dumpsMembers members) ++ [ch '\x7d']

def dumpsItems : List (Value F) → List PyStr
  | [] => []
  | t :: items => dumps t :: dumpsItems items

def dumpsMembers : List (PyStr × Value F) → List PyStr
  | [] => []
  | (k, t) :: members => (quote k ++ ch ':' :: ch ' ' :: dumps t) :: dumpsMembers members

end

theorem dumpsItems_eq (items : List (Value F)) : dumpsItems fl items = items.map (dumps fl) := by
  induction items with
  | nil => rfl
  | cons t items ih => rw [dumpsItems, ih, List.map_cons]

theorem dumpsMembers_eq (members : List (PyStr × Value F)) : dumpsMembers fl members =
    members.map fun m => quote m.1 ++ ch ':' :: ch ' ' :: dumps fl m.2 := by
  induction members with
  | nil => rfl
  | cons m members ih => rw [dumpsMembers, ih, List.map_cons]

/-! ## Reading back -/

/-- What a value is after it was printed and read. -/
def Value.reread (t : Value F) : Value F := t.join.collapse

@[simp] theorem Value.reread_str (s : PyStr) :
    (Value.str s : Value F).reread = .str (PyStr.join s) := by
  rw [reread, join, collapse, map_str, map_str, id]

/-- What the members of an object are after it was printed and read. -/
def rereadMembers (members : List (PyStr × Value F)) : List (PyStr × Value F) :=
  Value.dictOf (members.map fun m => (PyStr.join m.1, m.2.reread))

theorem Value.reread_obj (members : List (PyStr × Value F)) :
    (Value.obj members).reread = .obj (rereadMembers members) := by
  rw [reread, join, collapse, map_obj, map_obj, id, List.map_map]
  rfl

theorem Value.reread_eq_self {t : Value F} (hjoined : t.Joined) (hdistinct : t.Distinct) :
    t.reread = t := by
  rw [reread, join_eq_self hjoined, collapse_eq_self hdistinct]

variable {fl}

theorem lexes_dumps (t : Value F) : Lexes fl (dumps fl t) (tokens t.join) := by
  induction t using Value.ind with
  | atom a =>
    rw [Value.join, Value.map_atom, dumps, tokens]
    exact fun rest hrest => lexFrom_atomText fl a hrest
  | str s =>
    rw [Value.join, Value.map_str, dumps, tokens]
    exact lexes_quote s
  | arr items ih =>
    have hitems := Lexes.commaSep ih
    rw [Value.join, Value.map_arr, dumps, tokens, dumpsItems_eq, tokensItems_eq, List.map_map]
    exact (hitems.punct (c := ch '[') rfl).close rfl (by decide)
  | obj members ih =>
    have hmembers := Lexes.commaSep fun m hm =>
      (lexes_quote m.1).append (by decide) ((ih m hm).space.punct (c := ch ':') rfl)
    rw [Value.join, Value.map_obj, dumps, tokens, dumpsMembers_eq, tokensMembers_eq, id,
      List.map_map]
    exact (hmembers.punct (c := ch '\x7b') rfl).close rfl (by decide)

variable (fl)

/-- **Reading back** what `json.dumps` wrote. -/
theorem parse_dumps (t : Value F) : parse fl (dumps fl t) = some t.reread := by
  have h : lexFrom fl .between (dumps fl t ++ []) = _ := lexes_dumps t [] endsWord_nil
  rw [List.append_nil] at h
  rw [parse, h]
  simp [lexFrom, finish, ofTokens_tokens, Value.reread]

theorem parse_nil : parse fl [] = none := rfl

/-! ## The object in a text -/

/-- From the first opening brace of a text to the last closing one; empty where there is none. -/
def braced (s : PyStr) : PyStr :=
  ((s.dropWhile (· ≠ ch '\x7b')).reverse.dropWhile (· ≠ ch '\x7d')).reverse

/-- The text of an object stands in braces. -/
theorem braced_dumps_obj (members : List (PyStr × Value F)) :
    braced (dumps fl (.obj members)) = dumps fl (.obj members) := by
  rw [dumps, braced, List.cons_append, List.dropWhile_cons_of_neg (by simp), ← List.cons_append,
    List.reverse_append, List.reverse_singleton, List.singleton_append,
    List.dropWhile_cons_of_neg (by simp), ← List.singleton_append, List.reverse_append,
    List.reverse_reverse, List.reverse_singleton]

end JsonText

end RagLeap
